import RobotLang.Proofs.CanonicalWords
import RobotLang.Proofs.Gaps

/-!
The words of a text, the end of the input apart. Lines can be scanned one by one, whatever they end
in (`textWords_newline`), and no token of a text is the end of the input (`isEnd_of_mem_tokenize`).
-/

namespace RobotLang

/-- The words that a text is scanned to. -/
def textWords (text : String) : List String := (tokenize text).tokens.map (·.text)

theorem texts_tokenize (text : String) :
    (tokenize text).texts = textWords text ++ [endOfInput] := by
  rw [TokenQueue.texts, TokenQueue.toList, List.map_append]
  rfl

namespace Scanner

variable {s : Scanner}

/-! ## Lines -/

/-- The scanner with tokens that were found before its own. -/
def onto (s : Scanner) (found : List Token) : Scanner := { s with found := s.found ++ found }

theorem fresh_onto (own found : List Token) (place : Span) (c : Char) :
    fresh (own ++ found) place c = (fresh own place c).onto found := by
  unfold fresh
  split
  · rfl
  split
  · rfl
  split <;> rfl

theorem completed_onto (s : Scanner) (found : List Token) :
    (s.onto found).completed = s.completed ++ found := by
  obtain ⟨own, place, mode⟩ := s
  cases mode <;> rfl

theorem step_onto (s : Scanner) (found : List Token) (c : Char) :
    (s.onto found).step c = (s.step c).onto found := by
  have completed := s.completed_onto found
  obtain ⟨own, place, mode⟩ := s
  cases mode with
  | gap => exact fresh_onto own found place c
  | comment => rfl
  | word begins chars =>
    simp only [step, onto] at completed ⊢
    split
    · rfl
    · rw [completed]
      exact fresh_onto _ found place c

theorem scan_onto (s : Scanner) (found : List Token) (cs : List Char) :
    (s.onto found).scan cs = (s.scan cs).onto found := by
  induction cs generalizing s with
  | nil => rfl
  | cons c cs ih => rw [scan_cons, scan_cons, step_onto, ih]

/-- A newline ends comments and words, and begins no token. -/
theorem step_newline (s : Scanner) : s.step '\n' = ⟨s.completed, s.place.after '\n', .gap⟩ := by
  obtain ⟨found, place, mode⟩ := s
  cases mode <;> rfl

theorem yields_line (text : String) : Yields (text.toList ++ ['\n']) (textWords text) := by
  intro found place
  -- The line is scanned at another place and behind other tokens than the text alone.
  have places : (⟨[], place, .gap⟩ : Scanner).unplaced = start.unplaced := rfl
  have same := congrArg (List.map Token.text)
    (completed_unplaced (scan_unplaced places text.toList))
  have scanned : (⟨found, place, .gap⟩ : Scanner).scan text.toList =
      ((⟨[], place, .gap⟩ : Scanner).scan text.toList).onto found :=
    scan_onto ⟨[], place, .gap⟩ found text.toList
  generalize (⟨[], place, .gap⟩ : Scanner).scan text.toList = line at same scanned
  refine ⟨line.completed.reverse, line.place.after '\n', ?_, ?_⟩
  · rw [scan_append, scanned, scan_cons, step_newline, completed_onto, List.reverse_reverse]
    rfl
  · rw [textWords, tokenize, finish, List.map_reverse, List.map_reverse]
    simpa [Function.comp_def, Token.unplaced] using same

theorem Yields.unique {cs : List Char} {ws us : List String} (h : Yields cs ws)
    (k : Yields cs us) : ws = us := by
  obtain ⟨ts, last, scanned, texts⟩ := h [] .start
  obtain ⟨ts', last', scanned', texts'⟩ := k [] .start
  rw [scanned] at scanned'
  simp only [List.append_nil, mk.injEq, List.reverse_inj] at scanned'
  rw [← texts, ← texts', scanned'.1]

/-! ## No end in the text -/

/-- No token is the end of the input, and the word under way is written in word characters. -/
structure Endless (s : Scanner) : Prop where
  found : ∀ t ∈ s.found, t.isEnd = false
  word : ∀ begins chars, s.mode = .word begins chars → ∀ c ∈ chars, isWordChar c = true

theorem Endless.completed (h : s.Endless) : ∀ t ∈ s.completed, t.isEnd = false := by
  obtain ⟨found, place, mode⟩ := s
  cases mode with
  | gap | comment => exact h.found
  | word begins chars =>
    refine List.forall_mem_cons.mpr ⟨?_, h.found⟩
    rw [Token.isEnd_eq_false]
    intro ended
    have spelled : chars.reverse = endOfInput.toList := by rw [← ended, String.toList_ofList]
    have hash : '#' ∈ chars := by
      rw [← List.mem_reverse, spelled]
      decide
    exact absurd (h.word begins chars rfl '#' hash) (by decide)

theorem Endless.step (h : s.Endless) (c : Char) : (s.step c).Endless := by
  have stepped := s.stepCase c
  generalize s.step c = next at stepped
  cases stepped with
  | inComment =>
    refine ⟨h.found, fun begins chars inWord => ?_⟩
    split at inWord <;> cases inWord
  | inWord mode isWord =>
    refine ⟨h.found, ?_⟩
    rintro _ _ ⟨⟩
    exact List.forall_mem_cons.mpr ⟨isWord, h.word _ _ mode⟩
  | word isWord =>
    refine ⟨h.completed, ?_⟩
    rintro _ _ ⟨⟩
    simpa using isWord
  | comment | blank => exact ⟨h.completed, by rintro _ _ ⟨⟩⟩
  | single =>
    refine ⟨List.forall_mem_cons.mpr ⟨?_, h.completed⟩, by rintro _ _ ⟨⟩⟩
    rw [Token.isEnd_eq_false]
    intro ended
    have single : endOfInput.toList.length = 1 := by rw [← ended, String.toList_ofList]; rfl
    exact absurd single (by decide)

theorem endless_scan (cs : List Char) {s : Scanner} (h : s.Endless) : (s.scan cs).Endless := by
  induction cs generalizing s with
  | nil => exact h
  | cons c cs ih => exact ih (h.step c)

end Scanner

theorem textWords_of_yields {text : String} {words : List String}
    (h : Scanner.Yields (text.toList ++ ['\n']) words) : textWords text = words :=
  (Scanner.yields_line text).unique h

theorem textWords_spaced {words : List String} (inside : ∀ word ∈ words, InWordChars word) :
    textWords (Layout.spaced words) = words :=
  textWords_of_yields (Layout.yields_spaced inside)

/-- The words of lines are the words of the first one and those of the others, even if the first one
ends in a comment. -/
theorem textWords_newline (line lines : String) :
    textWords (line ++ "\n" ++ lines) = textWords line ++ textWords lines := by
  refine textWords_of_yields ?_
  have both := (Scanner.yields_line line).append (Scanner.yields_line lines)
  simpa [String.toList_append] using both

theorem isEnd_of_mem_tokenize {text : String} : ∀ t ∈ (tokenize text).tokens, t.isEnd = false := by
  have first : Scanner.start.Endless := ⟨by simp [Scanner.start], by rintro _ _ ⟨⟩⟩
  intro t mem
  exact (Scanner.endless_scan text.toList first).completed t (List.mem_reverse.mp mem)

end RobotLang
