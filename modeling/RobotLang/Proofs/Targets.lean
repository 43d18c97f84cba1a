import RobotLang.Proofs.DescentProgram
import RobotLang.Proofs.Reachable

/-!
What becomes of targets. A procedure that fills in its target at the very end leaves the old one
where it comes back with an error, and puts a new one in its place otherwise, whatever the old one
was (`Procedure.AllOrNothing`). The parsers of statements, blocks and whole programs are such
procedures, and the registers of a workbench are filled in the same way (`targets_all_or_nothing`).
The parser of declarations is none of them, since it keeps a body that it has read.
-/

namespace RobotLang

open RobotLang.Parser

variable {τ α σ : Type} {q : TokenQueue}

/-- On a queue, an error leaves the target as it was, and everything else does not depend on it. -/
structure Procedure.AllOrNothing (p : Procedure τ α) (q : TokenQueue) : Prop where
  kept : ∀ {old e after}, p ⟨q, old⟩ = .refused e after → after.target = old
  replaced : ∀ {old a after}, p ⟨q, old⟩ = .value a after → ∀ other, p ⟨q, other⟩ = .value a after

theorem Procedure.AllOrNothing.of_outcome {p : Procedure τ Unit} {run : Run σ τ}
    (came : ∀ target, p ⟨q, target⟩ = run.outcome target) : p.AllOrNothing q where
  kept := by
    intro old e after h
    rw [came, Run.outcome] at h
    split at h <;> cases h
    rfl
  replaced := by
    intro old a after h other
    rw [came, Run.outcome] at h ⊢
    cases result : run.result with
    | ok new => simpa only [result] using h
    | error e =>
      simp only [result] at h
      cases h

theorem Procedure.AllOrNothing.of_settled {p : Procedure τ Unit}
    {run : Except Violation (Run σ τ)} (came : ∀ target, p ⟨q, target⟩ = settled run target) :
    p.AllOrNothing q := by
  cases run with
  | ok run => exact .of_outcome came
  | error violation => exact ⟨by simp [came, settled], by simp [came, settled]⟩

namespace Workbench

variable {w v : Workbench} {target : String}

theorem parseInto_error {run : Run σ Statement} {e : ParseError} {after : Workbench}
    (h : w.parseInto target run = (.error e, after)) :
    after.statements = w.statements ∧ after.programs = w.programs := by
  unfold parseInto at h
  split at h <;> cases h
  exact ⟨rfl, rfl⟩

theorem parseInto_ok {run : Run σ Statement} {reply : Reply} {after : Workbench}
    (h : w.parseInto target run = (.ok reply, after)) (v : Workbench) :
    ∃ after', v.parseInto target run = (.ok reply, after') ∧
      after'.statement target = after.statement target := by
  unfold parseInto at h ⊢
  cases result : run.result with
  | ok s =>
    simp only [result] at h ⊢
    cases h
    exact ⟨_, rfl, by simp [statement_setStatement]⟩
  | error e =>
    simp only [result] at h
    cases h

/-- The commands that read a statement into a register. -/
inductive ReadsStatement (target : String) : Command → Prop
  | statement : ReadsStatement target (.parseStatement target)
  | block : ReadsStatement target (.parseBlock target)
  | ifStatement : ReadsStatement target (.parseIf target)
  | whileStatement : ReadsStatement target (.parseWhile target)

/-- Each of them is a parser whose result goes into the register. -/
theorem ReadsStatement.apply_eq {command : Command} (reads : ReadsStatement target command)
    (q : TokenQueue) :
    ∃ run : Except Violation (Run BlockState Statement), ∀ w : Workbench, w.queue = q →
      w.apply command = run.map (w.parseInto target) := by
  cases reads with
  | statement =>
    refine ⟨.ok (Parser.statement (some nestingLimit) q), ?_⟩
    rintro w rfl
    rfl
  | block =>
    refine ⟨.ok (Parser.block (some nestingLimit) q), ?_⟩
    rintro w rfl
    rfl
  | ifStatement =>
    refine ⟨Parser.ifStatement (some nestingLimit) q, ?_⟩
    rintro w rfl
    simp only [apply]
    cases Parser.ifStatement (some nestingLimit) w.queue <;> rfl
  | whileStatement =>
    refine ⟨Parser.whileStatement (some nestingLimit) q, ?_⟩
    rintro w rfl
    simp only [apply]
    cases Parser.whileStatement (some nestingLimit) w.queue <;> rfl

theorem ReadsStatement.kept {command : Command} {e : ParseError} {after : Workbench}
    (reads : ReadsStatement target command) (h : w.apply command = .ok (.error e, after)) :
    after.statements = w.statements ∧ after.programs = w.programs := by
  obtain ⟨run, same⟩ := reads.apply_eq w.queue
  rw [same w rfl] at h
  cases run with
  | ok run => exact parseInto_error (Except.ok.inj h)
  | error violation => cases h

theorem ReadsStatement.replaced {command : Command} {reply : Reply} {after : Workbench}
    (reads : ReadsStatement target command) (h : w.apply command = .ok (.ok reply, after))
    (sameQueue : v.queue = w.queue) :
    ∃ after', v.apply command = .ok (.ok reply, after') ∧
      after'.statement target = after.statement target := by
  obtain ⟨run, same⟩ := reads.apply_eq w.queue
  rw [same w rfl] at h
  rw [same v sameQueue]
  cases run with
  | ok run =>
    obtain ⟨after', came, replaced⟩ := parseInto_ok (Except.ok.inj h) v
    exact ⟨after', congrArg Except.ok came, replaced⟩
  | error violation => cases h

theorem parseProgram_kept {e : ParseError} {after : Workbench}
    (h : w.apply (.parseProgram target) = .ok (.error e, after)) :
    after.statements = w.statements ∧ after.programs = w.programs := by
  have h := Except.ok.inj h
  simp only [parseProgramInto] at h
  split at h <;> cases h
  exact ⟨rfl, rfl⟩

theorem parseProgram_replaced {reply : Reply} {after : Workbench}
    (h : w.apply (.parseProgram target) = .ok (.ok reply, after)) (sameQueue : v.queue = w.queue) :
    ∃ after', v.apply (.parseProgram target) = .ok (.ok reply, after') ∧
      after'.program target = after.program target := by
  have h := Except.ok.inj h
  simp only [parseProgramInto] at h
  simp only [apply, parseProgramInto, sameQueue]
  cases result : (Parser.program (some nestingLimit) w.queue).result with
  | ok p =>
    simp only [result] at h ⊢
    cases h
    exact ⟨_, rfl, by simp [program_setProgram]⟩
  | error e =>
    simp only [result] at h
    cases h

end Workbench

namespace Parser

/-- The parsers leave their targets as they were, or replace them whatever they were. -/
theorem targets_all_or_nothing :
    (∀ (q : TokenQueue) (fuel : Nat), q.length ≤ fuel →
      (Descent.statement (Descent.block fuel 1)).AllOrNothing q ∧
      (Descent.block fuel 0).AllOrNothing q ∧
      (Descent.ifStatement (Descent.block fuel 1)).AllOrNothing q ∧
      (Descent.whileStatement (Descent.block fuel 1)).AllOrNothing q ∧
      (Descent.programInto fuel).AllOrNothing q) ∧
    ∀ (target : String) (w : Workbench),
      (∀ command, Workbench.ReadsStatement target command ∨ command = .parseProgram target →
        ∀ e after, w.apply command = .ok (.error e, after) →
          after.statements = w.statements ∧ after.programs = w.programs) ∧
      (∀ command, Workbench.ReadsStatement target command →
        ∀ reply after, w.apply command = .ok (.ok reply, after) →
          ∀ v : Workbench, v.queue = w.queue → ∃ after', v.apply command = .ok (.ok reply, after') ∧
            after'.statement target = after.statement target) ∧
      ∀ reply after, w.apply (.parseProgram target) = .ok (.ok reply, after) →
        ∀ v : Workbench, v.queue = w.queue →
          ∃ after', v.apply (.parseProgram target) = .ok (.ok reply, after') ∧
            after'.program target = after.program target := by
  refine ⟨fun q fuel enough => ?_, fun target w => ⟨?_, ?_, ?_⟩⟩
  · have short : q.tokens.length < fuel := enough
    exact ⟨.of_outcome (statement_eq_run (Nat.le_of_lt short)),
      .of_outcome (block_eq_run short),
      .of_settled (ifStatement_eq_run (Nat.le_of_lt short)),
      .of_settled (whileStatement_eq_run (Nat.le_of_lt short)),
      .of_outcome (programInto_eq_run short)⟩
  · rintro command (reads | rfl) e after refused
    · exact reads.kept refused
    · exact Workbench.parseProgram_kept refused
  · intro command reads reply after accepted v sameQueue
    exact reads.replaced accepted sameQueue
  · intro reply after accepted v sameQueue
    exact Workbench.parseProgram_replaced accepted sameQueue

/-- An IF that is refused behind its block, a block that is read, and the same from an empty
workbench. -/
theorem targets_all_or_nothing_if :
    (∃ e after, Descent.ifStatement (Descent.block 5 1)
        ⟨.ofTexts ["IF", "random", "THEN", "move"], .call "skip"⟩ = .refused e after ∧
      after.target = .call "skip") ∧
    (∃ after, Descent.block 5 0 ⟨.ofTexts ["move", "skip"], .call "skip"⟩ = .value () after ∧
      Descent.block 5 0 ⟨.ofTexts ["move", "skip"], .empty⟩ = .value () after) ∧
    (∃ e after, Workbench.empty.apply (.parseProgram "p") = .ok (.error e, after) ∧
      after.statements = Workbench.empty.statements ∧ after.programs = Workbench.empty.programs) ∧
    ∃ after after' : Workbench, Workbench.empty.apply (.parseBlock "s") = .ok (.ok .done, after) ∧
      (Workbench.empty.setStatement "s" (.call "skip")).apply (.parseBlock "s") =
        .ok (.ok .done, after') ∧
      after'.statement "s" = after.statement "s" := by
  obtain ⟨queues, registers⟩ := targets_all_or_nothing
  have refused : Descent.ifStatement (Descent.block 5 1)
      ⟨.ofTexts ["IF", "random", "THEN", "move"], .call "skip"⟩ =
        .refused ⟨.branchEndDue .endOfInput, none⟩ ⟨.empty, .call "skip"⟩ := by decide +kernel
  have accepted : Descent.block 5 0 ⟨.ofTexts ["move", "skip"], .call "skip"⟩ =
      .value () ⟨.empty, .block [.call "move", .call "skip"]⟩ := by decide +kernel
  obtain ⟨kept, replaced, -⟩ := registers "s" .empty
  obtain ⟨after', came, same⟩ := replaced _ .block .done _ rfl
    (Workbench.empty.setStatement "s" (.call "skip")) rfl
  exact ⟨⟨_, _, refused, (queues _ 5 (by decide)).2.2.1.kept refused⟩,
    ⟨_, accepted, (queues _ 5 (by decide)).2.1.replaced accepted _⟩,
    ⟨_, _, rfl, (registers "p" .empty).1 _ (.inr rfl) _ _ rfl⟩, _, after', rfl, came, same⟩

end Parser

end RobotLang
