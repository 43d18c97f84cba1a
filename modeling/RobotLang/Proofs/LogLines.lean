import Mathlib.Data.List.Chain
import RobotLang.CommandLine.Execution
import RobotLang.Proofs.JsonTexts
import RobotLang.Proofs.Positions
import RobotLang.Proofs.QuotedWords

/-!
The line about an error in the log. Characters that a terminal obeys are spelled out in it, and a
backslash is not, so two messages might be shown alike. Those of parse errors are not, because nothing
that could be the rest of a code follows a backslash in them: the line tells the kind of the error and
its message (`faultLine_eq_iff`).
-/

namespace RobotLang

variable {c d : Char} {cs ds : List Char} {s t word before after text text' : String} {e e' : ParseError}

/-! ## Reading what has been spelled out -/

namespace Text

open Json (ofHexDigit ofHexDigit_digitChar)

/-- The character that comes first in a text as a terminal shows it, and what follows it. -/
def unspell? : List Char → Option (Char × List Char)
  | '\\' :: 'x' :: high :: low :: cs =>
    some (Char.ofNat (16 * ofHexDigit high + ofHexDigit low), cs)
  | '\\' :: 'u' :: _ :: high :: low :: _ :: cs =>
    some (Char.ofNat (16 * ofHexDigit high + ofHexDigit low), cs)
  | c :: cs => some (c, cs)
  | [] => none

theorem toList_spellOut (text : String) :
    (spellOut text).toList = text.toList.flatMap spellControl := by
  rw [spellOut, String.toList_ofList]

/-- The second character does not go on with a code that the first one might begin. -/
def NoCode (c d : Char) : Prop := c = '\\' → d ≠ 'x' ∧ d ≠ 'u'

/-- No backslash stands before what could be the rest of a code. -/
def Unescaped (cs : List Char) : Prop := cs.IsChain NoCode

theorem toNat_le_of_isTerminalControl (control : isTerminalControl c = true) : c.toNat ≤ 0x9f := by
  simp only [isTerminalControl, List.contains_eq_mem, List.mem_cons, List.not_mem_nil, or_false,
    Bool.or_eq_true, decide_eq_true_eq, Bool.and_eq_true] at control
  rcases control with (rfl | rfl | rfl | rfl) | ⟨-, high⟩
  · decide
  · decide
  · decide
  · decide
  · exact high

theorem unspell?_plain {rest : List Char} (stays : ∀ d ∈ rest.head?, NoCode c d) :
    unspell? (c :: rest) = some (c, rest) := by
  by_cases backslash : c = '\\'
  · subst backslash
    cases rest with
    | nil => rfl
    | cons d rest =>
      have other : d ≠ 'x' ∧ d ≠ 'u' := stays d rfl rfl
      simp [unspell?, other.1, other.2]
  · simp [unspell?, backslash]

theorem unspell?_spellControl {rest : List Char} (stays : ∀ d ∈ rest.head?, NoCode c d) :
    unspell? (spellControl c ++ rest) = some (c, rest) := by
  unfold spellControl
  split
  · exact unspell?_plain stays
  · rename_i control
    have bound : c.toNat ≤ 0x9f := toNat_le_of_isTerminalControl (by simpa using control)
    have high := ofHexDigit_digitChar (n := c.toNat / 16) (by omega)
    have low := ofHexDigit_digitChar (n := c.toNat % 16) (by omega)
    split <;> simp only [hexPair, List.cons_append, List.nil_append, unspell?, high, low,
      Nat.div_add_mod, Char.ofNat_toNat]

theorem head_spellControl (c : Char) :
    ∃ rest, spellControl c = c :: rest ∨ spellControl c = '\\' :: rest := by
  unfold spellControl
  split
  · exact ⟨[], .inl rfl⟩
  · split
    · exact ⟨_, .inr rfl⟩
    · exact ⟨_, .inr rfl⟩

/-- What comes first once a text is spelled out does not go on with a code either. -/
theorem Unescaped.head_spelled (unescaped : Unescaped (c :: cs)) :
    ∀ d ∈ (cs.flatMap spellControl).head?, NoCode c d := by
  cases cs with
  | nil => simp
  | cons d cs =>
    obtain ⟨rest, shown | shown⟩ := head_spellControl d
    · simpa [shown] using (List.isChain_cons_cons.mp unescaped).1
    · simp [shown, NoCode]

theorem Unescaped.flatMap_inj (unescaped : Unescaped cs) (unescaped' : Unescaped ds)
    (same : cs.flatMap spellControl = ds.flatMap spellControl) : cs = ds := by
  induction cs generalizing ds with
  | nil =>
    cases ds with
    | nil => rfl
    | cons d ds =>
      obtain ⟨rest, shown | shown⟩ := head_spellControl d <;> simp [shown] at same
  | cons c cs ih =>
    -- Reading one character from either side gives the same one, and leaves the same characters.
    have first := unspell?_spellControl unescaped.head_spelled
    rw [← List.flatMap_cons, same] at first
    cases ds with
    | nil => cases first
    | cons d ds =>
      rw [List.flatMap_cons, unspell?_spellControl unescaped'.head_spelled] at first
      obtain ⟨rfl, rest⟩ := Prod.ext_iff.mp (Option.some.inj first)
      exact congrArg (d :: ·)
        (ih (List.isChain_of_isChain_cons unescaped) (List.isChain_of_isChain_cons unescaped') rest.symm)

/-! ## Texts around quoted words -/

/-- Nothing in the text is the beginning of a code, whatever is put behind it. -/
structure Sealed (text : String) : Prop where
  unescaped : Unescaped text.toList
  last : ∀ c ∈ text.toList.getLast?, c ≠ '\\'

theorem unescaped_of_not_mem (absent : '\\' ∉ cs) : Unescaped cs := by
  induction cs with
  | nil => exact .nil
  | cons c cs ih =>
    rw [List.mem_cons, not_or] at absent
    cases cs with
    | nil => exact .singleton c
    | cons d cs =>
      exact List.isChain_cons_cons.mpr ⟨fun backslash => absurd backslash.symm absent.1, ih absent.2⟩

theorem Sealed.of_not_mem (absent : '\\' ∉ s.toList) : Sealed s :=
  ⟨unescaped_of_not_mem absent, fun _ last same => absent (same ▸ List.mem_of_getLast? last)⟩

theorem Sealed.append (first : Sealed s) (second : Sealed t) : Sealed (s ++ t) := by
  constructor
  · rw [String.toList_append]
    exact List.isChain_append.mpr ⟨first.unescaped, second.unescaped, fun c last _ _ backslash =>
      absurd backslash (first.last c last)⟩
  · intro c last
    rw [String.toList_append, List.getLast?_append, Option.mem_def, Option.or_eq_some_iff] at last
    rcases last with last | ⟨-, last⟩
    · exact second.last c last
    · exact first.last c last

/-- A quote stands behind a word, and does not go on with a code. -/
theorem Sealed.quoted (opens : Sealed before) (closes : Sealed after)
    (quote : after.toList.head? = some '"') (inside : Unescaped word.toList) :
    Sealed (before ++ word ++ after) := by
  have behind : Unescaped ((word ++ after).toList) := by
    rw [String.toList_append]
    refine List.isChain_append.mpr ⟨inside, closes.unescaped, fun c _ d first _ => ?_⟩
    obtain rfl := Option.some.inj (quote.symm.trans first)
    decide
  constructor
  · rw [String.append_assoc, String.toList_append]
    exact List.isChain_append.mpr ⟨opens.unescaped, behind, fun c last _ _ backslash =>
      absurd backslash (opens.last c last)⟩
  · intro c last
    refine closes.last c ?_
    obtain ⟨rest, spelled⟩ := List.head?_eq_some_iff.mp quote
    rw [String.toList_append, List.getLast?_append, spelled] at last
    rw [spelled]
    simpa using last

end Text

open Text

/-! ## Messages -/

theorem IsWord.unescaped (isWord : IsWord word) : Unescaped word.toList := by
  rcases isWord with inside | ⟨c, single, -⟩
  · apply unescaped_of_not_mem
    intro backslash
    exact absurd (List.all_eq_true.mp inside.2 _ backslash) (by decide)
  · rw [single]
    exact .singleton c

theorem unescaped_of_mem_texts (mem : word ∈ (tokenize text).texts) : Unescaped word.toList := by
  obtain ⟨t, among, rfl⟩ := List.mem_map.mp mem
  rcases List.mem_append.mp among with mem | mem
  · exact (isWord_of_mem_tokenize mem).unescaped
  · obtain rfl := List.mem_singleton.mp mem
    have closing : '\\' ∉ endOfInput.toList := by decide
    exact unescaped_of_not_mem closing

theorem Found.sealed_display {found : Found} (words : ∀ word ∈ found.words, Unescaped word.toList) :
    Sealed found.display := by
  cases found with
  | word text =>
    exact .quoted (.of_not_mem (by decide)) (.of_not_mem (by decide)) rfl
      (words text List.mem_cons_self)
  | endOfInput => exact .of_not_mem (by decide)

theorem KeywordPlace.sealed_display {place : KeywordPlace}
    (words : ∀ word ∈ place.words, Unescaped word.toList) : Sealed place.display := by
  cases place with
  | afterProgramName name | afterInstructionName name | afterInstructionBody name =>
    exact .quoted (.of_not_mem (by decide)) (.of_not_mem (by decide)) rfl
      (words name List.mem_cons_self)
  | programStart | beforeProgramBody | afterProgramBody => exact .of_not_mem (by decide)
  | afterCondition construct | afterBlock construct | afterEnd construct =>
    cases construct <;> exact .of_not_mem (by decide)

@[simp] theorem Keyword.sealed_text (k : Keyword) : Sealed k.text := by
  cases k <;> exact .of_not_mem (by decide)

@[simp] theorem Named.sealed_display (named : Named) : Sealed named.display := by
  cases named <;> exact .of_not_mem (by decide)

theorem sealed_natural (n : Nat) : Sealed (toString n) :=
  .of_not_mem fun backslash => absurd (Json.isDigit_of_mem_repr backslash) (by decide)

theorem Fault.sealed_message {fault : Fault}
    (words : ∀ word ∈ fault.words, Unescaped word.toList) : Sealed fault.message := by
  cases fault with
  | keywordDue place found =>
    obtain ⟨before, last⟩ := List.forall_mem_append.mp words
    have due : Sealed s!"expected \"{place.keyword.text}\" " :=
      .append (.append (.of_not_mem (by decide)) place.keyword.sealed_text) (.of_not_mem (by decide))
    exact .append (.append (.append due (KeywordPlace.sealed_display before))
      (.of_not_mem (by decide))) (Found.sealed_display last)
  | branchEndDue found | statementDue found =>
    exact .append (.of_not_mem (by decide)) (Found.sealed_display words)
  | conditionDue construct found =>
    exact .append (.append (.append (.of_not_mem (by decide)) construct.keyword.sealed_text)
      (.of_not_mem (by decide))) (Found.sealed_display words)
  | nameDue named found =>
    exact .append (.append (.append (Found.sealed_display words) (.of_not_mem (by decide)))
      named.sealed_display) (.of_not_mem (by decide))
  | notACondition word | primitiveName word | duplicateInstruction word =>
    exact .quoted (.of_not_mem (by decide)) (.of_not_mem (by decide)) rfl
      (words word List.mem_cons_self)
  | closingName named name found =>
    obtain ⟨first, last⟩ := List.forall_mem_cons.mp words
    have shown : Sealed s!"{named.display} ending name {found.display} must match beginning name \"" :=
      .append (.append (.append named.sealed_display (.of_not_mem (by decide)))
        (Found.sealed_display last)) (.of_not_mem (by decide))
    exact .quoted shown (.of_not_mem (by decide)) rfl first
  | afterProgram name found =>
    obtain ⟨first, last⟩ := List.forall_mem_cons.mp words
    exact .append (.quoted (.of_not_mem (by decide)) (.of_not_mem (by decide)) rfl first)
      (Found.sealed_display last)
  | afterStatements found =>
    exact .append (.append (.of_not_mem (by decide)) (Found.sealed_display words))
      (.of_not_mem (by decide))
  | nestedDeeperThan limit =>
    exact .append (.append (.of_not_mem (by decide)) (sealed_natural limit))
      (.of_not_mem (by decide))

theorem sealed_of_refused (failed : Program.parse text = .error e) : Sealed e.fault.message :=
  Fault.sealed_message fun _ mem => unescaped_of_mem_texts (Parser.quoted_of_program failed mem)

/-! ## Lines -/

theorem ErrorKind.display_injective {k l : ErrorKind} (same : k.display = l.display) : k = l := by
  revert same
  cases k <;> cases l <;> decide

theorem ErrorKind.equals_not_mem_display (k : ErrorKind) : '=' ∉ k.display.toList := by
  cases k <;> decide

namespace CommandLine

/-- What stands behind the last equals sign, and what stands before it. -/
theorem append_equals_inj {xs ys xs' ys' : List Char} (last : '=' ∉ ys) (last' : '=' ∉ ys')
    (same : xs ++ '=' :: ys = xs' ++ '=' :: ys') : xs = xs' ∧ ys = ys' := by
  rcases List.append_eq_append_iff.mp same with ⟨between, before, behind⟩ | ⟨between, before, behind⟩
  · cases between with
    | nil => simpa [before] using behind
    | cons c between => simp [(List.cons.inj behind).2] at last
  · cases between with
    | nil => simpa [before, eq_comm] using behind
    | cons c between => simp [(List.cons.inj behind).2] at last'

theorem faultLine_eq (e : ParseError) :
    faultLine e = "DEBUG fatal parse error: " ++
      (spellOut e.fault.message ++ (" kind=" ++ e.fault.kind.display)) := by
  rw [← String.append_assoc, ← String.append_assoc]
  rfl

theorem toList_faultLine (e : ParseError) :
    (faultLine e).toList = "DEBUG fatal parse error: ".toList ++
      ((e.fault.message.toList.flatMap spellControl ++ " kind".toList) ++
        '=' :: e.fault.kind.display.toList) := by
  have equals : " kind=".toList = " kind".toList ++ ['='] := by decide
  rw [faultLine_eq, String.toList_append, String.toList_append, String.toList_append,
    toList_spellOut, equals, List.append_assoc, List.append_assoc, List.singleton_append]

/-- The line about an error that a program is refused with tells the kind and the message, and nothing
else. -/
theorem faultLine_eq_iff (failed : Program.parse text = .error e)
    (failed' : Program.parse text' = .error e') :
    faultLine e = faultLine e' ↔
      e.diagnostic.kind = e'.diagnostic.kind ∧ e.diagnostic.message = e'.diagnostic.message := by
  constructor
  · intro same
    have lines := congrArg String.toList same
    rw [toList_faultLine, toList_faultLine] at lines
    generalize "DEBUG fatal parse error: ".toList = lead, " kind".toList = name at lines
    obtain ⟨messages, kinds⟩ := append_equals_inj e.fault.kind.equals_not_mem_display
      e'.fault.kind.equals_not_mem_display (List.append_cancel_left lines)
    have shown := List.append_cancel_right messages
    have message := (sealed_of_refused failed).unescaped.flatMap_inj
      (sealed_of_refused failed').unescaped shown
    exact ⟨ErrorKind.display_injective (String.toList_inj.mp kinds), String.toList_inj.mp message⟩
  · rintro ⟨kind, message⟩
    have kind : e.fault.kind = e'.fault.kind := kind
    have message : e.fault.message = e'.fault.message := message
    unfold faultLine
    rw [kind, message]

end CommandLine

end RobotLang
