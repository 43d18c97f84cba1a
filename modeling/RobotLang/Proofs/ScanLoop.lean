import RobotLang.Token.Scanner

/-!
Scanning as loops. The gap before a token is skipped, white space and comments in turns, and then
the token is read to its end; this goes on until nothing is left. Neither loop ends by its form, so
both run on fuel. Main statement: with more fuel than there are characters the loops come to the
tokens of the scanner (`tokens_eq_tokenize`).
-/

namespace RobotLang

theorem Text.not_isWordChar_of_isBlank {c : Char} (blank : isBlank c = true) :
    isWordChar c = false ∧ c ≠ '#' := by
  have ranges : c.toNat ≤ 0x20 ∨ 0x85 ≤ c.toNat := by
    simp [isBlank, blankRanges] at blank
    omega
  constructor
  · rw [Bool.eq_false_iff]
    intro word
    unfold isWordChar Char.isAlphanum Char.isAlpha Char.isUpper Char.isLower Char.isDigit at word
    simp only [Bool.or_eq_true, Bool.and_eq_true, decide_eq_true_eq, beq_iff_eq,
      UInt32.le_iff_toNat_le, ge_iff_le] at word
    rcases word with ((word | word) | word) | rfl
    all_goals simp at *
    all_goals omega
  · rintro rfl
    simp at ranges

theorem Scanner.scan_cons (s : Scanner) (c : Char) (cs : List Char) :
    s.scan (c :: cs) = (s.step c).scan cs := rfl

theorem Scanner.fresh_of_isBlank {c : Char} (blank : Text.isBlank c = true) (found : List Token)
    (place : Span) : fresh found place c = ⟨found, place.after c, .gap⟩ := by
  obtain ⟨notWord, notHash⟩ := Text.not_isWordChar_of_isBlank blank
  simp [fresh, notWord, notHash, blank]

/-- What the scanner does at a character: it goes on with the comment or the word that it is in, or it
begins something new. -/
inductive Scanner.StepCase (s : Scanner) (c : Char) : Scanner → Prop
  | inComment (mode : s.mode = .comment) :
      StepCase s c ⟨s.found, s.place.after c, if c = '\n' then .gap else .comment⟩
  | inWord {begins : Span} {chars : List Char} (mode : s.mode = .word begins chars)
      (isWord : isWordChar c = true) :
      StepCase s c ⟨s.found, s.place.after c, .word begins (c :: chars)⟩
  | word (isWord : isWordChar c = true) :
      StepCase s c ⟨s.completed, s.place.after c, .word s.place [c]⟩
  | comment (hash : c = '#') : StepCase s c ⟨s.completed, s.place.after c, .comment⟩
  | blank : StepCase s c ⟨s.completed, s.place.after c, .gap⟩
  | single :
      StepCase s c ⟨⟨String.ofList [c], some s.place⟩ :: s.completed, s.place.after c, .gap⟩

theorem Scanner.stepCase (s : Scanner) (c : Char) : s.StepCase c (s.step c) := by
  have begins : s.StepCase c (fresh s.completed s.place c) := by
    unfold fresh
    split
    · rename_i isWord
      exact .word isWord
    split
    · rename_i hash
      exact .comment hash
    split
    · exact .blank
    · exact .single
  obtain ⟨found, place, mode⟩ := s
  cases mode with
  | gap => exact begins
  | comment => exact .inComment rfl
  | word start chars =>
    simp only [step]
    split
    · rename_i isWord
      exact .inWord rfl isWord
    · exact begins

/-- A word ends before a character that is none of its own, and at the end of the text. -/
theorem Scanner.scan_behind_word {found : List Token} (place start : Span) (chars rest : List Char)
    (ends : ∀ c cs, rest = c :: cs → isWordChar c = false) :
    ((⟨found, place, .word start chars⟩ : Scanner).scan rest).finish =
      ((⟨⟨String.ofList chars.reverse, some start⟩ :: found, place, .gap⟩ : Scanner).scan
        rest).finish := by
  cases rest with
  | nil => rfl
  | cons c cs =>
    have stepped : (⟨found, place, .word start chars⟩ : Scanner).step c =
        (⟨⟨String.ofList chars.reverse, some start⟩ :: found, place, .gap⟩ : Scanner).step c := by
      simp [step, ends c cs rfl, completed]
    rw [scan_cons, scan_cons, stepped]

/-- The characters still to be read, and the place of the first of them. -/
structure Cursor where
  place : Span
  rest : List Char

namespace Cursor

variable {fuel : Nat} (found : List Token)

/-- Behind the longest run of such characters. -/
def past (p : Char → Bool) (c : Cursor) : Cursor :=
  ⟨(c.rest.takeWhile p).foldl Span.after c.place, c.rest.dropWhile p⟩

/-- Skip white space and comments. A comment is skipped up to its newline, which is white space. -/
def skipGap : Nat → Cursor → Option Cursor
  | 0, _ => none
  | fuel + 1, c =>
    let c := c.past Text.isBlank
    if c.rest.head? = some '#' then skipGap fuel (c.past (· ≠ '\n')) else some c

/-- Read a token whose first character and place are given. -/
def token (place : Span) (first : Char) (rest : List Char) : Token × Cursor :=
  let c : Cursor := ⟨place.after first, rest⟩
  if isWordChar first then
    (⟨String.ofList (first :: rest.takeWhile isWordChar), some place⟩, c.past isWordChar)
  else (⟨String.ofList [first], some place⟩, c)

/-- The tokens, closed by the end of the input. -/
def tokens : Nat → Cursor → Option TokenQueue
  | 0, _ => none
  | fuel + 1, c =>
    (skipGap (fuel + 1) c).bind fun c =>
      match c.rest with
      | [] => some ⟨[], some c.place⟩
      | first :: rest =>
        let (t, c) := token c.place first rest
        (tokens fuel c).map fun q => ⟨t :: q.tokens, q.endSpan⟩

theorem length_past (p : Char → Bool) (c : Cursor) : (c.past p).rest.length ≤ c.rest.length :=
  (List.dropWhile_sublist p).length_le

theorem past_cons {p : Char → Bool} {first : Char} (holds : p first = true) (place : Span)
    (rest : List Char) :
    past p ⟨place, first :: rest⟩ = past p ⟨place.after first, rest⟩ := by
  simp [past, holds]

theorem head_past {p : Char → Bool} {c : Cursor} {first : Char} {rest : List Char}
    (h : (c.past p).rest = first :: rest) : p first = false := by
  have head := List.head?_dropWhile_not p c.rest
  change c.rest.dropWhile p = first :: rest at h
  simpa [h] using head

/-! ## What the scanner makes of runs of characters -/

theorem scan_blanks (place : Span) (cs : List Char) :
    (⟨found, place, .gap⟩ : Scanner).scan cs =
      (⟨found, (past Text.isBlank ⟨place, cs⟩).place, .gap⟩ : Scanner).scan
        (past Text.isBlank ⟨place, cs⟩).rest := by
  induction cs generalizing place with
  | nil => rfl
  | cons c cs ih =>
    cases blank : Text.isBlank c with
    | false => simp [past, blank]
    | true =>
      have stepped : (⟨found, place, .gap⟩ : Scanner).step c = ⟨found, place.after c, .gap⟩ :=
        Scanner.fresh_of_isBlank blank found place
      rw [Scanner.scan_cons, stepped]
      simpa [past, blank] using ih (place.after c)

theorem scan_comment (place : Span) (cs : List Char) :
    ((⟨found, place, .comment⟩ : Scanner).scan cs).finish =
      ((⟨found, (past (· ≠ '\n') ⟨place, cs⟩).place, .gap⟩ : Scanner).scan
        (past (· ≠ '\n') ⟨place, cs⟩).rest).finish := by
  induction cs generalizing place with
  | nil => rfl
  | cons c cs ih =>
    by_cases newline : c = '\n'
    · -- The newline ends the comment, and outside of it does nothing either.
      subst newline
      have stepped : (⟨found, place, .comment⟩ : Scanner).step '\n' =
          (⟨found, place, .gap⟩ : Scanner).step '\n' := rfl
      rw [Scanner.scan_cons, stepped, ← Scanner.scan_cons]
      simp [past]
    · have stepped : (⟨found, place, .comment⟩ : Scanner).step c =
          ⟨found, place.after c, .comment⟩ := by
        simp [Scanner.step, newline]
      rw [Scanner.scan_cons, stepped]
      simpa [past, newline] using ih (place.after c)

theorem scan_word (place start : Span) (chars cs : List Char) :
    (⟨found, place, .word start chars⟩ : Scanner).scan cs =
      (⟨found, (past isWordChar ⟨place, cs⟩).place,
        .word start ((cs.takeWhile isWordChar).reverse ++ chars)⟩ : Scanner).scan
          (past isWordChar ⟨place, cs⟩).rest := by
  induction cs generalizing place chars with
  | nil => rfl
  | cons c cs ih =>
    cases word : isWordChar c with
    | false => simp [past, word]
    | true =>
      have stepped : (⟨found, place, .word start chars⟩ : Scanner).step c =
          ⟨found, place.after c, .word start (c :: chars)⟩ := by
        simp [Scanner.step, word]
      rw [Scanner.scan_cons, stepped]
      simpa [past, word] using ih (place.after c) (c :: chars)

theorem scan_token (place : Span) (first : Char) (rest : List Char)
    (notBlank : Text.isBlank first = false) (notHash : first ≠ '#') :
    ((⟨found, place, .gap⟩ : Scanner).scan (first :: rest)).finish =
      ((⟨(token place first rest).1 :: found, (token place first rest).2.place, .gap⟩ :
        Scanner).scan (token place first rest).2.rest).finish := by
  cases word : isWordChar first with
  | false =>
    have stepped : (⟨found, place, .gap⟩ : Scanner).step first =
        ⟨⟨String.ofList [first], some place⟩ :: found, place.after first, .gap⟩ := by
      simp [Scanner.step, Scanner.fresh, word, notHash, notBlank]
    rw [Scanner.scan_cons, stepped]
    simp [token, word]
  | true =>
    have stepped : (⟨found, place, .gap⟩ : Scanner).step first =
        ⟨found, place.after first, .word place [first]⟩ := by
      simp [Scanner.step, Scanner.fresh, word]
    have ends : ∀ c cs, (past isWordChar ⟨place.after first, rest⟩).rest = c :: cs →
        isWordChar c = false := fun _ _ => head_past
    rw [Scanner.scan_cons, stepped, scan_word,
      Scanner.scan_behind_word _ _ _ _ ends]
    simp [token, word]

theorem length_token (place : Span) (first : Char) (rest : List Char) :
    (token place first rest).2.rest.length ≤ rest.length := by
  unfold token
  split
  · exact length_past _ _
  · exact Nat.le_refl _

/-! ## The loops -/

/-- Before a token, or at the end of the text. -/
def AtToken (c : Cursor) : Prop :=
  ∀ first rest, c.rest = first :: rest → Text.isBlank first = false ∧ first ≠ '#'

theorem skipGap_eq {c : Cursor} (short : c.rest.length < fuel) :
    ∃ left, skipGap fuel c = some left ∧ left.AtToken ∧ left.rest.length ≤ c.rest.length ∧
      ∀ found, ((⟨found, c.place, .gap⟩ : Scanner).scan c.rest).finish =
        ((⟨found, left.place, .gap⟩ : Scanner).scan left.rest).finish := by
  induction fuel generalizing c with
  | zero => cases short
  | succ fuel ih =>
    have le := length_past Text.isBlank c
    have blanks (found : List Token) := scan_blanks found c.place c.rest
    have head := @head_past Text.isBlank c
    rw [skipGap]
    cases gap : c.past Text.isBlank with
    | mk place chars =>
      simp only [gap] at le blanks head ⊢
      by_cases hash : chars.head? = some '#'
      · obtain ⟨rest, rfl⟩ := List.head?_eq_some_iff.mp hash
        -- Up to the newline the comment takes its `#` at least, and the next turn has fuel for less.
        have shorter := length_past (· ≠ '\n') ⟨place.after '#', rest⟩
        simp only [List.length_cons] at le shorter
        obtain ⟨left, skipped, atToken, shorter', same⟩ :=
          ih (Nat.lt_of_le_of_lt shorter (by omega))
        rw [if_pos hash, past_cons (by decide)]
        refine ⟨left, skipped, atToken, by omega, fun found => ?_⟩
        rw [← same, blanks, ← scan_comment]
        rfl
      · rw [if_neg hash]
        refine ⟨_, rfl, ?_, le, fun found => by rw [blanks]⟩
        rintro first rest rfl
        exact ⟨head rfl, by simpa using hash⟩

theorem tokens_eq {c : Cursor} (short : c.rest.length < fuel) :
    ∃ q, tokens fuel c = some q ∧ ∀ found,
      ((⟨found, c.place, .gap⟩ : Scanner).scan c.rest).finish =
        ⟨found.reverse ++ q.tokens, q.endSpan⟩ := by
  induction fuel generalizing c with
  | zero => cases short
  | succ fuel ih =>
    obtain ⟨left, skipped, atToken, shorter, same⟩ := skipGap_eq short
    rw [tokens, skipped, Option.bind_some]
    split
    · rename_i ended
      refine ⟨⟨[], some left.place⟩, rfl, fun found => ?_⟩
      rw [same, ended]
      simp [Scanner.scan, Scanner.finish, Scanner.completed]
    · rename_i first rest spelled
      obtain ⟨notBlank, notHash⟩ := atToken first rest spelled
      have scanned (found : List Token) := scan_token found left.place first rest notBlank notHash
      have le := length_token left.place first rest
      rw [spelled, List.length_cons] at shorter
      generalize token left.place first rest = read at scanned le ⊢
      obtain ⟨t, behind⟩ := read
      obtain ⟨q, came, after⟩ := ih (Nat.lt_of_le_of_lt le (by omega))
      refine ⟨⟨t :: q.tokens, q.endSpan⟩, by simp [came], fun found => ?_⟩
      rw [same, spelled, scanned, after]
      simp

end Cursor

theorem tokens_eq_tokenize {text : String} {fuel : Nat} (enough : text.length < fuel) :
    Cursor.tokens fuel ⟨.start, text.toList⟩ = some (tokenize text) := by
  rw [← String.length_toList] at enough
  obtain ⟨q, came, same⟩ := @Cursor.tokens_eq fuel ⟨.start, text.toList⟩ enough
  rw [came, tokenize, Scanner.start, same]
  rfl

end RobotLang
