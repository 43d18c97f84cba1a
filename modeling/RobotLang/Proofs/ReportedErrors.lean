import RobotLang.Proofs.ErrorTokens
import RobotLang.Proofs.LoggedRuns

/-!
Errors in logs. A parser that is refused writes the error that it comes back with, once, and makes no
other one; a parser that succeeds, or that is not begun because its queue does not begin as it demands,
writes none (`faults_log`, `faults_wholeBlock`).
-/

namespace RobotLang

open RobotLang.Parser

/-- The errors that have been written to a log. -/
def faults (log : List Event) : List ParseError :=
  log.filterMap fun
    | .fault e => some e
    | _ => none

@[simp] theorem faults_closed (names : List String) : faults (names.map .closed) = [] := by
  simp [faults, List.filterMap_map]

/-- The error that a parser has come to, if it has. -/
def errorOf {α : Type} : Except ParseError α → List ParseError
  | .ok _ => []
  | .error e => [e]

theorem errorOf_map {α β : Type} (f : α → β) (result : Except ParseError α) :
    errorOf (result.map f) = errorOf result := by
  cases result <;> rfl

namespace Logged

variable {τ α β : Type} {l : Logged τ α} {next : α → Logged τ β} {s : Store τ}

theorem bind_violated {violation : Violation} {log : List Event}
    (h : l s = (.violated violation, log)) : (l >>= next) s = (.violated violation, log) := by
  simp only [bind, andThen, h]

theorem demand_unmet {next : Unit → Logged τ β} (violation : Violation) :
    (demand false violation >>= next) s = (.violated violation, []) := rfl

end Logged

namespace Parser

open Logged

variable {σ τ α : Type} {q : TokenQueue} {fuel : Nat} {construct : Construct} {text : String}

/-! ## What runs come to -/

theorem errorOf_result (run : Run σ α) : errorOf run.result = run.error?.toList := by
  rw [Run.error?]
  cases run.result <;> rfl

theorem faults_of_result? {told : α → List Event} {l : Logged τ α} {p : Procedure τ α} {s : Store τ}
    {result : Except ParseError α} (reports : Reports told l p) (clear : ∀ a, faults (told a) = [])
    (came : (p s).result? = some result) : faults (l s).2 = errorOf result := by
  cases outcome : p s with
  | value a after =>
    rw [outcome] at came
    rw [reports.value outcome, ← Option.some.inj came]
    exact clear a
  | refused e after =>
    rw [outcome] at came
    rw [reports.refused outcome, ← Option.some.inj came]
    rfl
  | violated | noFuel => simp [outcome, Outcome.result?] at came

theorem faults_of_outcome {l : Logged α Unit} {p : Procedure α Unit} (quiet : Quiet l p)
    {run : Run σ α} {target : α} {s : Store α} (came : p s = run.outcome target) :
    faults (l s).2 = run.error?.toList := by
  have result : (p s).result? = some (run.result.map fun _ => ()) := by
    rw [came, Run.outcome]
    cases run.result <;> rfl
  rw [faults_of_result? quiet (fun _ => rfl) result, errorOf_map, errorOf_result]

theorem faults_of_bodyOutcome {l : Logged Statement String} {p : Procedure Statement String}
    (reports : Reports (fun name => [.closed name]) l p)
    {run : Run DeclarationState (String × Statement)} {target : Statement} {s : Store Statement}
    (came : p s = run.bodyOutcome target) : faults (l s).2 = run.error?.toList := by
  have result : (p s).result? = some (run.result.map (·.1)) := by
    simp only [came, Run.bodyOutcome]
    cases run.result <;> rfl
  rw [faults_of_result? reports (fun _ => rfl) result, errorOf_map, errorOf_result]

theorem faults_events (run : Run ProgramState Program) : faults run.events = run.error?.toList := by
  rw [← errorOf_result, Run.events, faults, List.filterMap_append, ← faults, faults_closed]
  cases run.result <;> rfl

/-! ## Parsers that are not begun -/

theorem opening_unmet (other : q.front.text ≠ construct.keyword.text) (target : τ) :
    Logging.opening construct ⟨q, target⟩ = (.violated (.frontKeyword construct.keyword), []) := by
  rw [Logging.opening, front_bind, beq_eq_false_iff_ne.mpr other, demand_unmet]

theorem instruction_unmet (other : q.front.text ≠ Keyword.instruction.text) (target : Statement) :
    Logging.instruction fuel ⟨q, target⟩ = (.violated (.frontKeyword .instruction), []) := by
  rw [Logging.instruction, front_bind, beq_eq_false_iff_ne.mpr other, demand_unmet]

/-! ## Parsers of queues -/

/-- What the procedure of a parser writes to the log while it reads the queue. -/
def Entry.log (fuel : Nat) (q : TokenQueue) : Entry → List Event
  | program => (Logging.program fuel ⟨q, ()⟩).2
  | declaration => (Logging.instruction fuel ⟨q, .empty⟩).2
  | block => (Logging.block fuel 0 ⟨q, .empty⟩).2
  | statement => (Logging.statement (Logging.block fuel 1) ⟨q, .empty⟩).2
  | ifStatement => (Logging.ifStatement (Logging.block fuel 1) ⟨q, .empty⟩).2
  | whileStatement => (Logging.whileStatement (Logging.block fuel 1) ⟨q, .empty⟩).2

theorem faults_log (short : q.tokens.length < fuel) (entry : Entry) :
    faults (entry.log fuel q) = (entry.error? q).toList := by
  -- An IF, a WHILE or a declaration is only begun at its keyword; before it nothing is written.
  cases entry with
  | program =>
    simp only [Entry.log, Entry.error?]
    rw [program_logged short, Run.logged, faults_events]
  | declaration =>
    simp only [Entry.log, Entry.error?]
    have came := instruction_eq_run (Nat.le_of_lt short) .empty
    rw [declaration] at came ⊢
    split
    · rename_i starts
      rw [if_pos starts] at came
      exact faults_of_bodyOutcome (reports_instruction fuel) came
    · rename_i other
      rw [instruction_unmet other]
      rfl
  | block => exact faults_of_outcome (quiet_block fuel 0) (block_eq_run short .empty)
  | statement =>
    exact faults_of_outcome (quiet_statement (quiet_block fuel 1))
      (statement_eq_run (Nat.le_of_lt short) .empty)
  | ifStatement =>
    simp only [Entry.log, Entry.error?]
    have came := ifStatement_eq_run (q := q) (Nat.le_of_lt short) .empty
    rw [ifStatement] at came ⊢
    split
    · rename_i starts
      rw [if_pos starts] at came
      exact faults_of_outcome (quiet_ifStatement (quiet_block fuel 1)) came
    · rename_i other
      rw [Logging.ifStatement, bind_violated (opening_unmet other _)]
      rfl
  | whileStatement =>
    simp only [Entry.log, Entry.error?]
    have came := whileStatement_eq_run (q := q) (Nat.le_of_lt short) .empty
    rw [whileStatement] at came ⊢
    split
    · rename_i starts
      rw [if_pos starts] at came
      exact faults_of_outcome (quiet_whileStatement (quiet_block fuel 1)) came
    · rename_i other
      rw [Logging.whileStatement, bind_violated (opening_unmet other _)]
      rfl

theorem faults_wholeBlock (enough : text.length < fuel) :
    faults (Logging.wholeBlock fuel ⟨tokenize text, ()⟩).2 = errorOf (Statement.parse text) := by
  have came := Descent.wholeBlock_ofText enough
  rw [Descent.ofText_eq _ enough] at came
  exact faults_of_result? (quiet_wholeBlock fuel) (fun _ => rfl) came

end Parser

end RobotLang
