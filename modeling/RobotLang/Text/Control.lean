import RobotLang.Text.Hexadecimal

/-!
Control characters that a terminal obeys. A text of unknown contents is shown on a terminal with these
characters spelled out. Main statements: what is spelled out holds none of them
(`not_isTerminalControl_of_mem_spellOut`), and a text without them is shown as it is
(`spellOut_eq_self`).
-/

namespace RobotLang.Text

/-- The characters that a terminal obeys and that tell it more than where to go on writing: bell,
backspace, form feed, escape, delete, and U+0080 to U+009F. -/
def isTerminalControl (c : Char) : Bool :=
  ['\x07', '\x08', '\x0c', '\x1b'].contains c || (0x7f ≤ c.toNat && c.toNat ≤ 0x9f)

/-- A character as it is shown on a terminal. A control character is spelled out by its code, in one
form for ASCII and another one beyond it. -/
def spellControl (c : Char) : List Char :=
  if !isTerminalControl c then [c]
  else if c.toNat < 0x80 then ['\\', 'x'] ++ hexPair c.toNat
  else ['\\', 'u', '\x7b'] ++ hexPair c.toNat ++ ['\x7d']

/-- A text as it is shown on a terminal. -/
def spellOut (text : String) : String := String.ofList (text.toList.flatMap spellControl)

theorem not_isTerminalControl_digitChar : ∀ n : Nat, isTerminalControl (Nat.digitChar n) = false
  | 0 | 1 | 2 | 3 | 4 | 5 | 6 | 7 | 8 | 9 | 10 | 11 | 12 | 13 | 14 | 15 => rfl
  | _ + 16 => rfl

theorem not_isTerminalControl_of_mem_spellControl {c d : Char} (h : d ∈ spellControl c) :
    isTerminalControl d = false := by
  unfold spellControl at h
  split at h
  · rename_i plain
    rw [List.mem_singleton.mp h]
    simpa using plain
  · split at h <;> simp only [hexPair, List.cons_append, List.nil_append, List.mem_cons,
      List.not_mem_nil, or_false] at h
    · rcases h with rfl | rfl | rfl | rfl
      · rfl
      · rfl
      · exact not_isTerminalControl_digitChar _
      · exact not_isTerminalControl_digitChar _
    · rcases h with rfl | rfl | rfl | rfl | rfl | rfl
      · rfl
      · rfl
      · rfl
      · exact not_isTerminalControl_digitChar _
      · exact not_isTerminalControl_digitChar _
      · rfl

theorem not_isTerminalControl_of_mem_spellOut {text : String} {d : Char}
    (h : d ∈ (spellOut text).toList) : isTerminalControl d = false := by
  rw [spellOut, String.toList_ofList, List.mem_flatMap] at h
  obtain ⟨_, _, spelled⟩ := h
  exact not_isTerminalControl_of_mem_spellControl spelled

theorem flatMap_spellControl {cs : List Char} (plain : ∀ c ∈ cs, isTerminalControl c = false) :
    cs.flatMap spellControl = cs := by
  induction cs with
  | nil => rfl
  | cons c cs ih =>
    rw [List.flatMap_cons, ih fun d hd => plain d (List.mem_cons_of_mem c hd), spellControl,
      plain c List.mem_cons_self]
    rfl

theorem spellOut_eq_self {text : String} (plain : ∀ c ∈ text.toList, isTerminalControl c = false) :
    spellOut text = text := by
  rw [spellOut, flatMap_spellControl plain, String.ofList_toList]

end RobotLang.Text
