import RobotLang.Proofs.CheckedLayout
import RobotLang.Proofs.DescentProgram
import RobotLang.Proofs.Reachable
import RobotLang.Proofs.ScanLoop

/-!
Nothing breaks off. With as much fuel as there are tokens, and for texts more fuel than there are
characters, every procedure comes back with a value or with an error, the one that the parser comes
to, whatever the queue or the text holds: no demand is ever left unmet but the one on the front of
the queue that a procedure begins with. And all that can be built is written to its end.

Main statement: `never_breaks_off`.
-/

namespace RobotLang

open RobotLang.Parser

/-! ## Texts -/

/-- What a procedure gives back, if it comes back. -/
def Outcome.result? {τ α : Type} : Outcome τ α → Option (Except ParseError α)
  | .value a _ => some (.ok a)
  | .refused e _ => some (.error e)
  | .violated _ => none
  | .noFuel => none

theorem Scanner.length_completed_step (s : Scanner) (c : Char) :
    (s.step c).completed.length ≤ s.completed.length + 1 := by
  have stepped := s.stepCase c
  generalize s.step c = next at stepped
  cases stepped with
  | inComment mode =>
    rw [completed, completed, mode]
    split <;> simp
  | inWord mode => simp [completed, mode]
  | word | comment | blank | single =>
    generalize s.completed = done
    simp [completed]

theorem Scanner.length_completed_scan (s : Scanner) (cs : List Char) :
    (s.scan cs).completed.length ≤ s.completed.length + cs.length := by
  induction cs generalizing s with
  | nil => exact Nat.le_refl _
  | cons c cs ih =>
    have first := s.length_completed_step c
    have after := ih (s.step c)
    rw [scan, List.foldl_cons, ← scan, List.length_cons]
    omega

theorem length_tokenize (text : String) : (tokenize text).tokens.length ≤ text.length := by
  have h := Scanner.start.length_completed_scan text.toList
  simpa [tokenize, Scanner.finish, Scanner.start, Scanner.completed, ← String.length_toList] using h

namespace Parser.Descent

variable {α : Type} {fuel : Nat} {text : String}

/-- Read the tokens of a text. -/
def ofText (read : Procedure Unit α) (fuel : Nat) (text : String) : Outcome Unit α :=
  match Cursor.tokens fuel ⟨.start, text.toList⟩ with
  | some q => read ⟨q, ()⟩
  | none => .noFuel

theorem ofText_eq (read : Procedure Unit α) (enough : text.length < fuel) :
    ofText read fuel text = read ⟨tokenize text, ()⟩ := by
  simp only [ofText, tokens_eq_tokenize enough]

theorem program_ofText (enough : text.length < fuel) :
    (ofText (program fuel) fuel text).result? = some (Program.parse text) := by
  have short : (tokenize text).tokens.length < fuel :=
    Nat.lt_of_le_of_lt (length_tokenize text) enough
  rw [ofText_eq _ enough, program_eq_run short, Run.returned, Program.parse]
  cases (Parser.program (some nestingLimit) (tokenize text)).result <;> rfl

theorem wholeBlock_ofText (enough : text.length < fuel) :
    (ofText (wholeBlock fuel) fuel text).result? = some (Statement.parse text) := by
  have short : (tokenize text).tokens.length < fuel :=
    Nat.lt_of_le_of_lt (length_tokenize text) enough
  have came := block_eq_run short .empty
  rw [ofText_eq _ enough, wholeBlock, Statement.parse, Parser.statements]
  cases result : (Parser.block (some nestingLimit) (tokenize text)).result with
  | ok b =>
    simp only [Run.outcome, result] at came
    rw [Procedure.bind_value (Procedure.inside_value came), Procedure.front_bind,
      Procedure.atEnd_bind, Procedure.ensure_bind, TokenQueue.atEnd]
    cases ended : (Parser.block (some nestingLimit) (tokenize text)).rest.front.isEnd <;>
      simp only [ended, if_true, Bool.false_eq_true, if_false] <;> rfl
  | error e =>
    simp only [Run.outcome, result] at came
    rw [Procedure.bind_refused (Procedure.inside_refused came)]
    rfl

end Parser.Descent

/-! ## Nothing breaks off -/

theorem parse_of_isCondition {word : String} (known : isCondition word = true) :
    ∃ c, Condition.parse word = .ok c := by
  obtain ⟨c, rfl⟩ := isCondition_iff.mp known
  exact ⟨c, Condition.parse_spelling c⟩

theorem Workbench.Reachable.checkedText {w : Workbench} (reached : w.Reachable) :
    (∀ s indent, w.Holds s → s.checkedText indent = some (s.text indent)) ∧
      ∀ name, (w.program name).checkedText = some (w.program name).text :=
  ⟨fun _ indent held => Statement.checkedText_eq (reached.holds held) indent,
    fun name => Program.checkedText_eq (reached.sound.programs name)⟩

namespace Parser

/-- The procedures come back with what the parsers come to, on every queue and on every text, and
whatever commands come to is written to its end. -/
theorem never_breaks_off :
    (∀ (q : TokenQueue) (fuel : Nat), q.length ≤ fuel →
      (∀ target : Statement,
        Descent.statement (Descent.block fuel 1) ⟨q, target⟩ =
          (statement (some nestingLimit) q).outcome target ∧
        Descent.block fuel 0 ⟨q, target⟩ = (block (some nestingLimit) q).outcome target ∧
        (q.front.text = Keyword.if.text → ∃ run, ifStatement (some nestingLimit) q = .ok run ∧
          Descent.ifStatement (Descent.block fuel 1) ⟨q, target⟩ = run.outcome target) ∧
        (q.front.text = Keyword.while.text → ∃ run, whileStatement (some nestingLimit) q = .ok run ∧
          Descent.whileStatement (Descent.block fuel 1) ⟨q, target⟩ = run.outcome target) ∧
        (isIdentifier q.front.text = true → ∃ call left, callStatement q = .ok (call, left) ∧
          Descent.callStatement ⟨q, target⟩ = .value () ⟨left, call⟩) ∧
        (q.front.text = Keyword.instruction.text →
          ∃ run, declaration (some nestingLimit) q = .ok run ∧
            Descent.instruction fuel ⟨q, target⟩ = run.bodyOutcome target) ∧
        Descent.program fuel ⟨q, target⟩ = (program (some nestingLimit) q).returned target) ∧
      ∀ target : Program,
        Descent.programInto fuel ⟨q, target⟩ = (program (some nestingLimit) q).outcome target) ∧
    (∀ word, isCondition word = true → ∃ c, Condition.parse word = .ok c) ∧
    (∀ (text : String) (fuel : Nat), text.length < fuel →
      (Descent.ofText (Descent.program fuel) fuel text).result? = some (Program.parse text) ∧
      (Descent.ofText (Descent.wholeBlock fuel) fuel text).result? = some (Statement.parse text)) ∧
    ∀ w : Workbench, w.Reachable →
      (∀ s indent, w.Holds s → s.checkedText indent = some (s.text indent)) ∧
      ∀ name, (w.program name).checkedText = some (w.program name).text := by
  refine ⟨fun q fuel enough => ?_, fun _ => parse_of_isCondition, fun text fuel enough => ?_,
    fun w => Workbench.Reachable.checkedText⟩
  · have short : q.tokens.length < fuel := enough
    refine ⟨fun target => ⟨?_, ?_, ?_, ?_, ?_, ?_, ?_⟩, programInto_eq_run short⟩
    · exact statement_eq_run (Nat.le_of_lt short) target
    · exact block_eq_run short target
    · intro starts
      have came := ifStatement_eq_run (Nat.le_of_lt short) target
      rw [ifStatement, if_pos starts] at came
      exact ⟨_, if_pos starts, came⟩
    · intro starts
      have came := whileStatement_eq_run (Nat.le_of_lt short) target
      rw [whileStatement, if_pos starts] at came
      exact ⟨_, if_pos starts, came⟩
    · intro named
      have came := callStatement_eq q target
      rw [callStatement, if_pos named] at came
      exact ⟨_, _, if_pos named, came⟩
    · intro starts
      have came := instruction_eq_run (Nat.le_of_lt short) target
      rw [declaration, if_pos starts] at came
      exact ⟨_, if_pos starts, came⟩
    · exact program_eq_run short target
  · exact ⟨Descent.program_ofText enough, Descent.wholeBlock_ofText enough⟩

/-- A queue for each procedure that demands its front, and a text. -/
theorem never_breaks_off_fronts :
    (∃ run, ifStatement (some nestingLimit) (.ofTexts ["IF", "random", "THEN", "END"]) = .ok run ∧
      Descent.ifStatement (Descent.block 5 1)
        ⟨.ofTexts ["IF", "random", "THEN", "END"], .empty⟩ = run.outcome .empty) ∧
    (∃ run, whileStatement (some nestingLimit) (.ofTexts ["WHILE", "true", "DO", ""]) = .ok run ∧
      Descent.whileStatement (Descent.block 5 1)
        ⟨.ofTexts ["WHILE", "true", "DO", ""], .empty⟩ = run.outcome .empty) ∧
    (∃ call left, callStatement (.ofTexts ["move"]) = .ok (call, left) ∧
      Descent.callStatement ⟨.ofTexts ["move"], .empty⟩ = .value () ⟨left, call⟩) ∧
    (∃ run, declaration (some nestingLimit) (.ofTexts ["INSTRUCTION", "a", "IS"]) = .ok run ∧
      Descent.instruction 4 ⟨.ofTexts ["INSTRUCTION", "a", "IS"], .empty⟩ =
        run.bodyOutcome .empty) ∧
    (∃ c, Condition.parse "next-is-wall" = .ok c) ∧
    (Descent.ofText (Descent.program 25) 25 "PROGRAM p IS BEGIN END p").result? =
      some (Program.parse "PROGRAM p IS BEGIN END p") ∧
    ((Workbench.empty.run Workbench.enclosing).statement "outer").checkedText 2 =
      some (((Workbench.empty.run Workbench.enclosing).statement "outer").text 2) := by
  obtain ⟨queues, conditions, texts, written⟩ := never_breaks_off
  refine ⟨?_, ?_, ?_, ?_, conditions _ (by decide +kernel), (texts _ 25 (by decide +kernel)).1,
    (written _ (Workbench.Reachable.empty.run Workbench.enclosing)).1 _ 2 (.register "outer")⟩
  · exact ((queues _ 5 (by decide)).1 .empty).2.2.1 rfl
  · exact ((queues _ 5 (by decide)).1 .empty).2.2.2.1 rfl
  · exact ((queues _ 2 (by decide)).1 .empty).2.2.2.2.1 (by decide +kernel)
  · exact ((queues _ 4 (by decide)).1 .empty).2.2.2.2.2.1 rfl

end Parser

end RobotLang
