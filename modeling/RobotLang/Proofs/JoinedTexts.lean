import RobotLang.Proofs.BlockContinuation
import RobotLang.Proofs.Faults
import RobotLang.Proofs.FrontEnds
import RobotLang.Proofs.LexicalGrammar

/-!
Texts one below the other. The tokens of two texts with a newline between them are the tokens of the
first one and those of the second one, which stand as many lines and characters further on
(`tokenize_newline`). So if the first text is parsed to a block, parsing goes on behind this block as if
the second text were alone (`parse_newline`): the statements of the two blocks are joined, and an error
in the second text is the same error, found further on (`parse_joins`).
-/

namespace RobotLang

/-! ## Places further on -/

namespace Span

/-- Where the place in a text is found when the text stands below another one. -/
def below (text : String) (s : Span) : Span :=
  ⟨s.line + 1 + text.toList.count '\n', s.column, s.offset + text.length + 1⟩

theorem below_after (text : String) (s : Span) (c : Char) :
    (s.after c).below text = (s.below text).after c := by
  unfold after
  split
  · simp only [below, mk.injEq, true_and]
    omega
  · simp only [below, mk.injEq, true_and]
    omega

theorem below_start (text : String) :
    start.below text = (start.across text.toList).after '\n' := by
  have line := line_across start text.toList
  have offset := offset_across start text.toList
  rw [String.length_toList] at offset
  simp only [start, after, if_true, below, mk.injEq, true_and] at line offset ⊢
  omega

end Span

namespace Scanner

variable {f : Span → Span}

def Mode.moved (f : Span → Span) : Mode → Mode
  | .word begins chars => .word (f begins) chars
  | mode => mode

/-- The scanner at another place, and all that it has found as well. -/
def moved (f : Span → Span) (s : Scanner) : Scanner :=
  ⟨s.found.map (Token.placed (Option.map f)), f s.place, s.mode.moved f⟩

theorem completed_moved (s : Scanner) :
    (s.moved f).completed = s.completed.map (Token.placed (Option.map f)) := by
  obtain ⟨found, place, mode⟩ := s
  cases mode <;> rfl

theorem fresh_moved (along : ∀ s c, f (Span.after s c) = (f s).after c) (found : List Token)
    (place : Span) (c : Char) :
    fresh (found.map (Token.placed (Option.map f))) (f place) c = (fresh found place c).moved f := by
  unfold fresh
  rw [← along]
  split
  · rfl
  split
  · rfl
  split <;> rfl

theorem step_moved (along : ∀ s c, f (Span.after s c) = (f s).after c) (s : Scanner) (c : Char) :
    (s.moved f).step c = (s.step c).moved f := by
  have completed := s.completed_moved (f := f)
  obtain ⟨found, place, mode⟩ := s
  cases mode with
  | gap => exact fresh_moved along found place c
  | comment =>
    simp only [step, moved, Mode.moved, ← along]
    split <;> rfl
  | word begins chars =>
    simp only [step, moved, Mode.moved] at completed ⊢
    split
    · rw [← along]
    · rw [completed]
      exact fresh_moved along _ place c

theorem scan_moved (along : ∀ s c, f (Span.after s c) = (f s).after c) (s : Scanner)
    (cs : List Char) : (s.moved f).scan cs = (s.scan cs).moved f := by
  induction cs generalizing s with
  | nil => rfl
  | cons c cs ih => rw [scan_cons, scan_cons, step_moved along, ih]

theorem place_step (s : Scanner) (c : Char) : (s.step c).place = s.place.after c := by
  have stepped := s.stepCase c
  generalize s.step c = next at stepped
  cases stepped <;> rfl

theorem place_scan (s : Scanner) (cs : List Char) : (s.scan cs).place = s.place.across cs := by
  induction cs generalizing s with
  | nil => rfl
  | cons c cs ih =>
    rw [scan_cons, ih, place_step]
    rfl

end Scanner

/-! ## Tokens of the second text -/

theorem tokenize_newline (first second : String) :
    (tokenize (first ++ "\n" ++ second)).toList =
      (tokenize first).tokens ++
        ((tokenize second).placed (Option.map (Span.below first))).toList := by
  have characters : (first ++ "\n" ++ second).toList =
      first.toList ++ '\n' :: second.toList := by simp [String.toList_append]
  -- Behind the newline the scanner is the one at the start, moved and behind the tokens so far.
  have newline : (Scanner.start.scan first.toList).step '\n' =
      (Scanner.start.moved (Span.below first)).onto (tokenize first).tokens.reverse := by
    have place : Scanner.start.place.across first.toList = Span.start.across first.toList := rfl
    rw [Scanner.step_newline, Scanner.place_scan, place, ← Span.below_start first]
    simp [tokenize, Scanner.finish, Scanner.onto, Scanner.moved, Scanner.start, Scanner.Mode.moved]
  rw [TokenQueue.toList_eq_append, tokenize, characters, Scanner.scan_append, Scanner.scan_cons,
    newline, Scanner.scan_onto, Scanner.scan_moved (Span.below_after first)]
  simp only [Scanner.finish, Scanner.completed_onto, Scanner.completed_moved, List.reverse_append,
    List.reverse_reverse, TokenQueue.placed, tokenize, List.map_reverse]
  rfl

/-! ## Parsing behind a block -/

theorem Parser.statements_error_span {limit : Option Nat} {text : String} {e : ParseError}
    (failed : statements limit text = .error e) :
    ∃ t ∈ (tokenize text).toList, e.span = t.span := by
  obtain ⟨t, mem, points⟩ := statements_pointsAt failed
  exact ⟨t, mem, points.span⟩

namespace Statement

open RobotLang.Parser

variable {first second : String} {body : List Statement}

theorem block_newline (parsed : parse first = .ok (.block body)) :
    Parser.block (some nestingLimit) (tokenize (first ++ "\n" ++ second)) =
      (Parser.block (some nestingLimit) (tokenize second)).on (·.behind body.reverse)
        (Option.map (Span.below first)) (fun b => .block (body ++ b.children)) := by
  obtain ⟨⟨_, ⟨⟩, shaped, fits⟩, texts⟩ := parse_ok_iff.mp parsed
  rw [Nat.zero_add] at fits
  have read := block_reading (some nestingLimit) shaped texts
  have behind := run_behind (some nestingLimit) body.reverse (Option.map (Span.below first))
    (tokenize second)
  rw [List.reverse_reverse] at behind
  cases read with
  | through _ _ moved =>
    rw [← behind]
    exact Machine.run_of_moves (tokenize_newline first second) isEnd_of_mem_tokenize moved
  | tooDeep deep => exact absurd fits deep
  | repeated old => exact absurd trivial old

/-- What a text is parsed to behind a text that is parsed to a block. -/
theorem parse_newline (parsed : parse first = .ok (.block body)) :
    parse (first ++ "\n" ++ second) =
      resultOn (Option.map (Span.below first)) (fun b => .block (body ++ b.children))
        (parse second) := by
  simp only [parse, statements, block_newline parsed]
  generalize Parser.block (some nestingLimit) (tokenize second) = run
  simp only [Run.on, TokenQueue.front_placed]
  cases run.result with
  | error e => rfl
  | ok b =>
    have sameEnd : (run.rest.front.placed (Option.map (Span.below first))).isEnd =
        run.rest.front.isEnd := rfl
    simp only [resultOn, sameEnd]
    split <;> rfl

/-- Behind a text that is parsed to a block and a newline, the statements of another text are added to
that block; and if there is an error in the other text it stays the same error, as many lines and
characters further on as there are before that text. -/
theorem parse_joins {b : Statement} (parsed : parse first = .ok b) (second : String) :
    (∀ c, parse second = .ok c →
      parse (first ++ "\n" ++ second) = .ok (.block (b.children ++ c.children))) ∧
    ∀ e, parse second = .error e → ∃ place, e.span = some place ∧
      parse (first ++ "\n" ++ second) = .error ⟨e.fault,
        some ⟨place.line + 1 + first.toList.count '\n', place.column,
          place.offset + first.length + 1⟩⟩ := by
  obtain ⟨⟨body, rfl, -, -⟩, -⟩ := parse_ok_iff.mp parsed
  constructor
  · intro c accepted
    rw [parse_newline parsed, accepted]
    rfl
  · intro e failed
    obtain ⟨t, mem, found⟩ := statements_error_span failed
    obtain ⟨place, span⟩ := span_of_mem_tokenize mem
    refine ⟨place, found.trans span, ?_⟩
    rw [parse_newline parsed, failed, resultOn, ParseError.placed, found, span]
    rfl

/-- The first text ends in a comment, and the second one is a statement or stops within one. -/
theorem parse_joins_comment :
    parse "move # north" = .ok (.block [.call "move"]) ∧
      parse ("move # north" ++ "\n" ++ "turnleft") =
        .ok (.block [.call "move", .call "turnleft"]) ∧
      parse ("move # north" ++ "\n" ++ "IF random move") =
        .error ⟨.keywordDue (.afterCondition .«if») (.word "move"), some ⟨2, 11, 23⟩⟩ := by
  have parsed : parse "move # north" = .ok (.block [.call "move"]) := by rfl
  have other : parse "turnleft" = .ok (.block [.call "turnleft"]) := by rfl
  have fails : parse "IF random move" =
      .error ⟨.keywordDue (.afterCondition .«if») (.word "move"), some ⟨1, 11, 10⟩⟩ := by rfl
  refine ⟨parsed, (parse_joins parsed "turnleft").1 _ other, ?_⟩
  obtain ⟨place, span, joined⟩ := (parse_joins parsed "IF random move").2 _ fails
  cases span
  exact joined

end Statement

end RobotLang
