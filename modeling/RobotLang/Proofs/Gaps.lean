import RobotLang.Fingerprint
import RobotLang.Proofs.Places
import RobotLang.Proofs.ScanLoop

/-!
Layout does not matter. White space and closed comments may be put anywhere into a text but into a
comment and between two characters of a word, and the words of the text stay the same
(`texts_insert_gap`). Nor does it matter where these words stand, so layout has no part in what is
parsed, printed and fingerprinted (`layout_irrelevant`).
-/

namespace RobotLang

/-- White space, and comments that are closed by their newlines. -/
inductive Gap : List Char → Prop
  | nil : Gap []
  | blank {c : Char} {g : List Char} (isBlank : Text.isBlank c = true) (rest : Gap g) : Gap (c :: g)
  | comment {line g : List Char} (oneLine : '\n' ∉ line) (rest : Gap g) :
      Gap ('#' :: line ++ '\n' :: g)

/-- The last line has a `#`, so what follows on that line is part of a comment. -/
def EndsInComment (u : List Char) : Prop := '#' ∈ u.reverse.takeWhile (· ≠ '\n')

/-- One text ends in a word character, and the other one begins with one. -/
def JoinsWords (u v : List Char) : Prop :=
  ∃ c d, u.getLast? = some c ∧ v.head? = some d ∧ isWordChar c = true ∧ isWordChar d = true

namespace Scanner

variable {s t : Scanner} {found found' : List Token}

/-! ## Scanners that differ in places only -/

def Mode.unplaced : Mode → Mode
  | .word _ chars => .word .start chars
  | mode => mode

/-- The scanner without the places that it has seen. -/
def unplaced (s : Scanner) : Scanner := ⟨s.found.map Token.unplaced, .start, s.mode.unplaced⟩

theorem unplaced_fresh (h : found.map Token.unplaced = found'.map Token.unplaced)
    (place place' : Span) (c : Char) :
    (fresh found place c).unplaced = (fresh found' place' c).unplaced := by
  unfold fresh
  split
  · simp [unplaced, Mode.unplaced, h]
  split
  · simp [unplaced, Mode.unplaced, h]
  split <;> simp [unplaced, Mode.unplaced, h, Token.unplaced]

theorem completed_unplaced (h : s.unplaced = t.unplaced) :
    s.completed.map Token.unplaced = t.completed.map Token.unplaced := by
  obtain ⟨found, place, mode⟩ := s
  obtain ⟨found', place', mode'⟩ := t
  simp only [unplaced, mk.injEq, true_and] at h
  obtain ⟨founds, modes⟩ := h
  cases mode <;> cases mode' <;> cases modes <;> simp [completed, founds, Token.unplaced]

theorem step_unplaced (h : s.unplaced = t.unplaced) (c : Char) :
    (s.step c).unplaced = (t.step c).unplaced := by
  have completed := completed_unplaced h
  obtain ⟨found, place, mode⟩ := s
  obtain ⟨found', place', mode'⟩ := t
  simp only [unplaced, mk.injEq, true_and] at h
  obtain ⟨founds, modes⟩ := h
  cases mode <;> cases mode' <;> cases modes
  case gap.gap => exact unplaced_fresh founds place place' c
  case comment.comment => simp only [step, unplaced, founds]
  case word.word =>
    simp only [step]
    split
    · simp [unplaced, Mode.unplaced, founds]
    · exact unplaced_fresh completed place place' c

theorem scan_unplaced (h : s.unplaced = t.unplaced) (cs : List Char) :
    (s.scan cs).unplaced = (t.scan cs).unplaced := by
  induction cs generalizing s t with
  | nil => exact h
  | cons c cs ih => exact ih (step_unplaced h c)

theorem texts_of_unplaced (h : s.unplaced = t.unplaced) : s.finish.texts = t.finish.texts := by
  rw [TokenQueue.texts_eq_iff]
  have same := congrArg (List.map Token.text) (completed_unplaced h)
  simpa [finish, Function.comp_def, Token.unplaced] using same

/-! ## Gaps between tokens -/

theorem scan_line {line : List Char} (oneLine : '\n' ∉ line) (found : List Token) (place : Span) :
    ∃ last, (⟨found, place, .comment⟩ : Scanner).scan line = ⟨found, last, .comment⟩ := by
  induction line generalizing place with
  | nil => exact ⟨place, rfl⟩
  | cons c line ih =>
    simp only [List.mem_cons, not_or] at oneLine
    obtain ⟨last, scanned⟩ := ih oneLine.2 (place.after c)
    refine ⟨last, ?_⟩
    rw [scan_cons, step]
    simpa only [Ne.symm oneLine.1, if_false] using scanned

theorem scan_gap {g : List Char} (gap : Gap g) (found : List Token) (place : Span) :
    ∃ last, (⟨found, place, .gap⟩ : Scanner).scan g = ⟨found, last, .gap⟩ := by
  induction gap generalizing place with
  | nil => exact ⟨place, rfl⟩
  | @blank c g isBlank _ ih =>
    obtain ⟨last, scanned⟩ := ih (place.after c)
    refine ⟨last, ?_⟩
    rw [scan_cons, step, fresh_of_isBlank isBlank]
    exact scanned
  | @comment line g oneLine _ ih =>
    obtain ⟨behind, read⟩ := scan_line oneLine found (place.after '#')
    obtain ⟨last, scanned⟩ := ih (behind.after '\n')
    refine ⟨last, ?_⟩
    have opened : (⟨found, place, .gap⟩ : Scanner).step '#' = ⟨found, place.after '#', .comment⟩ :=
      rfl
    rw [scan_append, scan_cons, scan_cons, opened, read]
    exact scanned

/-- A gap before a text changes none of its words. -/
theorem texts_scan_gap {g : List Char} (gap : Gap g) (found : List Token) (place : Span)
    (v : List Char) :
    ((⟨found, place, .gap⟩ : Scanner).scan (g ++ v)).finish.texts =
      ((⟨found, place, .gap⟩ : Scanner).scan v).finish.texts := by
  obtain ⟨last, scanned⟩ := scan_gap gap found place
  rw [scan_append, scanned]
  have same : (⟨found, last, .gap⟩ : Scanner).unplaced =
      (⟨found, place, .gap⟩ : Scanner).unplaced := rfl
  exact texts_of_unplaced (scan_unplaced same v)

/-! ## What a text ends in -/

theorem mode_comment {s : Scanner} {c : Char} (h : (s.step c).mode = .comment) :
    c ≠ '\n' ∧ (c = '#' ∨ s.mode = .comment) := by
  have stepped := s.stepCase c
  generalize s.step c = next at h stepped
  cases stepped with
  | inComment mode =>
    split at h
    · cases h
    · rename_i notNewline
      exact ⟨notNewline, .inr mode⟩
  | comment hash => exact ⟨by rw [hash]; decide, .inl hash⟩
  | inWord | word | blank | single => cases h

theorem endsInComment_of_scan {u : List Char} (h : (start.scan u).mode = .comment) :
    EndsInComment u := by
  unfold EndsInComment
  -- By induction from the back: the last newline closes whatever comment there was.
  rw [← List.reverse_reverse u] at h
  generalize u.reverse = r at h ⊢
  induction r with
  | nil => cases h
  | cons c r ih =>
    rw [List.reverse_cons, scan_append] at h
    obtain ⟨notNewline, hash⟩ := mode_comment h
    rw [List.takeWhile_cons_of_pos (by simpa using notNewline)]
    rcases hash with rfl | inside
    · exact List.mem_cons_self
    · exact List.mem_cons_of_mem _ (ih inside)

theorem isWordChar_of_mode {s : Scanner} {c : Char} {begins : Span} {chars : List Char}
    (h : (s.step c).mode = .word begins chars) : isWordChar c = true := by
  have stepped := s.stepCase c
  generalize s.step c = next at h stepped
  cases stepped with
  | inWord _ isWord | word isWord => exact isWord
  | inComment => split at h <;> cases h
  | comment | blank | single => cases h

theorem getLast?_of_scan {u : List Char} {begins : Span} {chars : List Char}
    (h : (start.scan u).mode = .word begins chars) :
    ∃ c, u.getLast? = some c ∧ isWordChar c = true := by
  rcases List.eq_nil_or_concat u with rfl | ⟨u, c, rfl⟩
  · cases h
  · rw [List.concat_eq_append, scan_append] at h
    exact ⟨c, by simp, isWordChar_of_mode h⟩

end Scanner

theorem Gap.head {g : List Char} {c : Char} (gap : Gap g) (first : g.head? = some c) :
    isWordChar c = false := by
  cases gap with
  | nil => cases first
  | blank isBlank =>
    cases first
    exact (Text.not_isWordChar_of_isBlank isBlank).1
  | comment =>
    cases first
    decide

/-- A gap may be put into a text wherever it is not in a comment and does not part a word. -/
theorem texts_insert_gap {u g v : String} (gap : Gap g.toList) (outside : ¬ EndsInComment u.toList)
    (apart : ¬ JoinsWords u.toList v.toList) :
    (tokenize (u ++ g ++ v)).texts = (tokenize (u ++ v)).texts := by
  simp only [tokenize, String.toList_append, Scanner.scan_append]
  cases scanned : Scanner.start.scan u.toList with
  | mk found place mode =>
    rw [← Scanner.scan_append]
    cases mode with
    | gap => exact Scanner.texts_scan_gap gap found place v.toList
    | comment => exact absurd (Scanner.endsInComment_of_scan (by rw [scanned])) outside
    | word begins chars =>
      obtain ⟨c, last, isWord⟩ := Scanner.getLast?_of_scan (by rw [scanned])
      have behind : ∀ d cs, v.toList = d :: cs → isWordChar d = false := by
        intro d cs first
        rw [← Bool.not_eq_true]
        exact fun joined => apart ⟨c, d, last, by simp [first], isWord, joined⟩
      generalize g.toList = g at gap
      cases g with
      | nil => rfl
      | cons first g =>
        -- The gap ends the word, which would have ended before the text behind it as well.
        have ends : ∀ d cs, first :: g ++ v.toList = d :: cs → isWordChar d = false := by
          rintro d cs ⟨⟩
          exact gap.head rfl
        rw [Scanner.scan_behind_word _ _ _ _ ends, Scanner.scan_behind_word _ _ _ _ behind]
        exact Scanner.texts_scan_gap gap _ place v.toList

/-! ## Layout -/

open RobotLang.Parser

/-- Where words stand, and what stands between them, has no part in what is parsed, printed and
fingerprinted. -/
theorem layout_irrelevant :
    (∀ (limit : Option Nat) (q r : TokenQueue), q.texts = r.texts →
      SameRun q r (program limit q) (program limit r) ∧
      SameRun q r (block limit q) (block limit r) ∧
      SameRun q r (statement limit q) (statement limit r) ∧
      (∀ run, ifStatement limit q = .ok run →
        ∃ run', ifStatement limit r = .ok run' ∧ SameRun q r run run') ∧
      (∀ run, whileStatement limit q = .ok run →
        ∃ run', whileStatement limit r = .ok run' ∧ SameRun q r run run') ∧
      ∀ run, declaration limit q = .ok run →
        ∃ run', declaration limit r = .ok run' ∧ SameRun q r run run' ∧
          readBody? limit run = readBody? limit run') ∧
    (∀ x y : String, (tokenize x).texts = (tokenize y).texts →
      (Program.parse x).mapError (·.fault) = (Program.parse y).mapError (·.fault) ∧
      (Statement.parse x).mapError (·.fault) = (Statement.parse y).mapError (·.fault) ∧
      ∀ p, Program.parse x = .ok p → ∃ p', Program.parse y = .ok p' ∧
        p'.text = p.text ∧ p'.fingerprint = p.fingerprint) ∧
    ∀ u g v : String, Gap g.toList → ¬ EndsInComment u.toList → ¬ JoinsWords u.toList v.toList →
      (tokenize (u ++ g ++ v)).texts = (tokenize (u ++ v)).texts := by
  refine ⟨fun limit q r same => ?_, fun x y same => ?_, fun u g v => texts_insert_gap⟩
  · exact ⟨program_sameRun limit same, block_sameRun limit same, statement_sameRun limit same,
      fun _ => ifStatement_sameRun same, fun _ => whileStatement_sameRun same,
      fun _ => declaration_sameRun same⟩
  · refine ⟨Program.parse_sameTexts same, Statement.parse_sameTexts same, fun p parsed => ?_⟩
    exact ⟨p, Program.parse_ok_sameTexts same parsed, rfl, rfl⟩

/-- A comment between two words, the words of an IF at other places, and a program with a comment.
-/
theorem layout_irrelevant_comment :
    (tokenize ("IF random THEN" ++ " # so\n" ++ " END IF")).texts =
      (tokenize ("IF random THEN" ++ " END IF")).texts ∧
    (∃ run, ifStatement none (.ofTexts ["IF", "random"]) = .ok run ∧
      SameRun (tokenize "IF\n random") (.ofTexts ["IF", "random"])
        (statement none (tokenize "IF\n random")) run) ∧
    ∃ p, Program.parse "PROGRAM p IS # nothing\nBEGIN END p" = .ok p ∧
      p.fingerprint = Program.fingerprint ⟨"p", .empty, .empty⟩ := by
  obtain ⟨queues, texts, gaps⟩ := layout_irrelevant
  have comment : Gap ('#' :: [' ', 's', 'o'] ++ '\n' :: []) := .comment (by decide) .nil
  have gap : Gap " # so\n".toList := .blank (by decide) comment
  have outside : ¬ EndsInComment "IF random THEN".toList := by
    unfold EndsInComment
    decide
  have apart : ¬ JoinsWords "IF random THEN".toList " END IF".toList := by
    rintro ⟨_, d, -, first, -, joined⟩
    cases first
    exact absurd joined (by decide)
  have same : (tokenize "IF\n random").texts = (TokenQueue.ofTexts ["IF", "random"]).texts := by
    decide +kernel
  have parsed : Program.parse "PROGRAM p IS BEGIN END p" = .ok ⟨"p", .empty, .empty⟩ := by
    rfl
  obtain ⟨p, reparsed, -, hashed⟩ := (texts "PROGRAM p IS BEGIN END p"
    "PROGRAM p IS # nothing\nBEGIN END p" (by decide +kernel)).2.2 _ parsed
  exact ⟨gaps _ _ _ gap outside apart, (queues none _ _ same).2.2.2.1 _ rfl, p, reparsed, hashed⟩

end RobotLang
