import RobotLang.Proofs.DescentBlock

/-!
The procedures for statements and blocks do what the machines do. A machine that reads a block, as
the machines for blocks, declarations and programs do, comes to what the procedure for blocks comes
to (`blockRun`). So the procedures come back with the results of the parsers, and leave the same
queues (`block_eq_run`, `statement_eq_run`, `ifStatement_eq_run`, `whileStatement_eq_run`).
-/

namespace RobotLang.Parser

open Procedure Descent

variable {σ τ α : Type} {via : BlockState → Prop} {s next last : BlockState} {q left : TokenQueue}
  {done : List Statement}

/-! ## Blocks in machines -/

/-- What a run comes to, for a procedure that fills its target in at the very end. -/
def Run.outcome (run : Run σ α) (target : α) : Outcome α Unit :=
  match run.result with
  | .ok new => .value () ⟨run.rest, new⟩
  | .error e => .refused e ⟨run.rest, target⟩

/-- What a run comes to, for a procedure that leaves its target alone. -/
def Run.returned (run : Run σ α) (target : τ) : Outcome τ α :=
  match run.result with
  | .ok a => .value a ⟨run.rest, target⟩
  | .error e => .refused e ⟨run.rest, target⟩

/-- Part of the work of a machine is to read a block, and what the block refuses, it refuses. -/
structure Machine.Hosts (m : Machine σ α) (f : BlockState → σ) : Prop
    extends (blockMachine (some nestingLimit)).Embeds m f where
  ending : ∀ {s fault place}, s.endFault? (some nestingLimit) = some fault →
    m.onEnd (f s) place = .error ⟨fault, place⟩

variable {m : Machine σ α} {f : BlockState → σ}

theorem Machine.Hosts.run_of_reaches (hosts : m.Hosts f) (h : Reaches via s q next left) :
    m.run (f s) q = m.run (f next) left := by
  induction h with
  | refl => rfl
  | step _ goesOn shifted _ ih =>
    rw [← ih]
    refine Machine.run_of_shift goesOn (hosts.shift ?_)
    simp only [blockMachine, shifted]

theorem Machine.Hosts.run_of_refusal (hosts : m.Hosts f) {fault : Fault}
    (h : s.refusal? q.front = some fault) :
    m.run (f s) q = ⟨f s, .error ⟨fault, q.front.span⟩, q⟩ := by
  unfold BlockState.refusal? at h
  split at h
  · rename_i ended
    rw [Machine.run_of_atEnd ended, hosts.ending h]
  · rename_i goesOn
    split at h
    · rename_i refused
      cases h
      have halts : (blockMachine (some nestingLimit)).onWord s q.front = .refuse fault q.front := by
        simp only [blockMachine, refused]
      have goesOn : q.atEnd = false := by simpa [TokenQueue.atEnd] using goesOn
      exact Machine.run_of_halt goesOn (hosts.error halts)
    · cases h

theorem block_hosts : (blockMachine (some nestingLimit)).Hosts id where
  shift h := h
  error h := h
  ending h := by simp only [blockMachine, id, h]

/-- What the procedure for an outermost block comes to, and the machine that reads the block. -/
inductive BlockRun (m : Machine σ α) (f : BlockState → σ) (q : TokenQueue) (target : Statement) :
    Outcome Statement Unit → Prop
  | read {body : List Statement} {left : TokenQueue}
      (shorter : left.tokens.length ≤ q.tokens.length) (ends : endsBlock left.front = true)
      (ran : m.run (f .start) q = m.run (f ⟨[], body.reverse, .statement⟩) left) :
      BlockRun m f q target (.value () ⟨left, .block body⟩)
  | refused {next : BlockState} {fault : Fault} {left : TokenQueue}
      (refuses : next.refusal? left.front = some fault)
      (ran : m.run (f .start) q = ⟨f next, .error ⟨fault, left.front.span⟩, left⟩) :
      BlockRun m f q target (.refused ⟨fault, left.front.span⟩ ⟨left, target⟩)

theorem blockRun (hosts : m.Hosts f) {fuel : Nat} (short : q.tokens.length < fuel)
    (target : Statement) : BlockRun m f q target (Descent.block fuel 0 ⟨q, target⟩) := by
  have follows := readsBlocks fuel 0 (fun _ => True) [] q target (fun _ _ => trivial)
    (fun _ => trivial) rfl short
  generalize Descent.block fuel 0 ⟨q, target⟩ = outcome at follows
  cases follows with
  | value reached read =>
    obtain ⟨body, rfl, rfl, ends, -⟩ := read
    exact .read reached.length_le ends (hosts.run_of_reaches reached)
  | refused reached _ refuses =>
    exact .refused refuses ((hosts.run_of_reaches reached).trans (hosts.run_of_refusal refuses))

theorem step_of_endsBlock {t : Token} (ends : endsBlock t = true) (goesOn : t.isEnd = false) :
    (⟨[], done, .statement⟩ : BlockState).step (some nestingLimit) t.text = .close := by
  have room : Allows (some nestingLimit) ([] : List Frame).length := allows_zero _
  have word : t.text = Keyword.end.text ∨ t.text = Keyword.else.text := by
    simpa [endsBlock, goesOn] using ends
  rw [BlockState.step_statement room]
  rcases word with word | word <;>
    simp [BlockState.readStatement, BlockState.readEnd, BlockState.readElse, word]

theorem run_of_endsBlock (ends : endsBlock q.front = true) :
    (blockMachine (some nestingLimit)).run ⟨[], done, .statement⟩ q =
      ⟨⟨[], done, .statement⟩, .ok (.block done.reverse), q⟩ := by
  cases goesOn : q.atEnd with
  | true =>
    have mayEnd : (⟨[], done, .statement⟩ : BlockState).endFault? (some nestingLimit) = none :=
      BlockState.endFault?_eq_none_iff.mpr ⟨rfl, rfl⟩
    rw [Machine.run_of_atEnd goesOn]
    simp only [blockMachine, mayEnd, BlockState.block]
  | false =>
    have closes : (blockMachine (some nestingLimit)).onWord ⟨[], done, .statement⟩ q.front =
        .halt false (.ok (.block done.reverse)) := by
      simp only [blockMachine, step_of_endsBlock ends goesOn, BlockState.block]
    exact Machine.run_of_halt goesOn closes

theorem block_eq_run {fuel : Nat} (short : q.tokens.length < fuel) (target : Statement) :
    Descent.block fuel 0 ⟨q, target⟩ = (block (some nestingLimit) q).outcome target := by
  have run := blockRun block_hosts short target
  generalize Descent.block fuel 0 ⟨q, target⟩ = outcome at run
  cases run with
  | read _ ends ran =>
    rw [block, ← id_eq BlockState.start, ran, id_eq, run_of_endsBlock ends]
    simp only [Run.outcome, List.reverse_reverse]
  | refused _ ran =>
    rw [block, ← id_eq BlockState.start, ran]
    rfl

/-! ## Single statements -/

theorem Reaches.via_of_last (h : Reaches via s q last left) (isVia : via last) : via s := by
  cases h with
  | refl => exact isVia
  | step isVia => exact isVia

theorem statement_onWord_of_shift {t : Token}
    (shifted : s.step (some nestingLimit) t.text = .shift next) (incomplete : next.single? = none) :
    (statementMachine (some nestingLimit)).onWord s t = .shift next := by
  simp only [statementMachine, shifted, incomplete]

theorem statement_run_of_incomplete (h : Reaches (·.single? = none) s q last left)
    (incomplete : last.single? = none) :
    (statementMachine (some nestingLimit)).run s q =
      (statementMachine (some nestingLimit)).run last left := by
  induction h with
  | refl => rfl
  | step _ goesOn shifted after ih =>
    rw [← ih incomplete]
    exact Machine.run_of_shift goesOn
      (statement_onWord_of_shift shifted (after.via_of_last incomplete))

/-- The run ends with the word that completes the statement. -/
theorem statement_run_of_complete {read : Statement}
    (h : Reaches (·.single? = none) s q last left) (first : s.single? = none)
    (complete : last.single? = some read) (target : Statement) :
    ((statementMachine (some nestingLimit)).run s q).outcome target = .value () ⟨left, read⟩ := by
  induction h with
  | refl =>
    rw [complete] at first
    cases first
  | step _ goesOn shifted after ih =>
    cases after with
    | refl =>
      rename_i s _ q _
      have halts : (statementMachine (some nestingLimit)).onWord s q.front =
          .halt true (.ok read) := by
        simp only [statementMachine, shifted, complete]
      rw [Machine.run_of_halt goesOn halts]
      rfl
    | step isVia goesOn' shifted' after =>
      rw [Machine.run_of_shift goesOn (statement_onWord_of_shift shifted isVia)]
      exact ih isVia complete

theorem statement_run_of_refusal {fault : Fault} (h : s.refusal? q.front = some fault) :
    (statementMachine (some nestingLimit)).run s q = ⟨s, .error ⟨fault, q.front.span⟩, q⟩ := by
  unfold BlockState.refusal? at h
  split at h
  · rename_i ended
    rw [Machine.run_of_atEnd ended]
    simp only [statementMachine, h, Option.getD_some]
  · rename_i goesOn
    split at h
    · rename_i refused
      cases h
      have goesOn : q.atEnd = false := by simpa [TokenQueue.atEnd] using goesOn
      have halts : (statementMachine (some nestingLimit)).onWord s q.front =
          .refuse fault q.front := by
        simp only [statementMachine, refused]
      exact Machine.run_of_halt goesOn halts
    · cases h

/-- Before a token that ends a block there is no statement. -/
theorem statement_run_of_endsBlock (ends : endsBlock q.front = true) :
    (statementMachine (some nestingLimit)).run .start q =
      ⟨.start, .error ⟨.statementDue (found q.front), q.front.span⟩, q⟩ := by
  cases goesOn : q.atEnd with
  | true =>
    have mayEnd : BlockState.start.endFault? (some nestingLimit) = none :=
      BlockState.endFault?_eq_none_iff.mpr ⟨rfl, rfl⟩
    have isEnd : q.front.isEnd = true := goesOn
    rw [Machine.run_of_atEnd goesOn]
    simp [statementMachine, mayEnd, found, isEnd]
  | false =>
    have notEnd : q.front.isEnd = false := goesOn
    have closes : BlockState.start.step (some nestingLimit) q.front.text = .close :=
      step_of_endsBlock ends goesOn
    have halts : (statementMachine (some nestingLimit)).onWord .start q.front =
        .refuse (.statementDue (found q.front)) q.front := by
      simp [statementMachine, closes, found, notEnd]
    exact Machine.run_of_halt goesOn halts

theorem outcome_of_follows {outcome : Outcome Statement Unit} {target : Statement}
    (h : Follows (·.single? = none) .start q target
      (fun _ new last _ => StatementRead [] [] new last) outcome) :
    outcome = (statement (some nestingLimit) q).outcome target := by
  cases h with
  | value reached read =>
    obtain ⟨-, rfl⟩ := read
    exact (statement_run_of_complete reached rfl rfl target).symm
  | refused reached isVia refuses =>
    rw [statement, statement_run_of_incomplete reached isVia, statement_run_of_refusal refuses]
    rfl

theorem single?_of_inside {s : BlockState} (inside : s.Inside) : s.single? = none := by
  unfold BlockState.single?
  split
  · rcases inside with inside | inside <;> exact absurd rfl inside
  · rfl

section

variable {fuel : Nat} (short : q.tokens.length ≤ fuel) (target : Statement)

include short

theorem statement_eq_run :
    Descent.statement (Descent.block fuel 1) ⟨q, target⟩ =
      (statement (some nestingLimit) q).outcome target := by
  cases ends : endsBlock q.front with
  | true =>
    rw [statement, statement_run_of_endsBlock ends, Descent.statement, front_bind]
    have other : q.front.text ≠ Keyword.if.text ∧ q.front.text ≠ Keyword.while.text ∧
        isIdentifier q.front.text = false := by
      simp only [endsBlock, Bool.or_eq_true, beq_iff_eq, Token.isEnd] at ends
      rcases ends with (word | word) | word <;> rw [word] <;> decide +kernel
    simp only [other, if_false, Bool.false_eq_true]
    rfl
  | false =>
    exact outcome_of_follows (follows_statement (readsBlocks fuel 1) short
      (fun _ => single?_of_inside) rfl (allows_zero _) ends)

/-- What a run comes to whose queue has to begin in some way. -/
def settled (run : Except Violation (Run σ α)) (target : α) : Outcome α Unit :=
  match run with
  | .ok run => run.outcome target
  | .error violation => .violated violation

theorem ifStatement_eq_run :
    Descent.ifStatement (Descent.block fuel 1) ⟨q, target⟩ =
      settled (ifStatement (some nestingLimit) q) target := by
  unfold ifStatement
  split
  · rename_i starts
    exact outcome_of_follows (follows_ifStatement (readsBlocks fuel 1) short
      (fun _ => single?_of_inside) rfl (allows_zero _) starts)
  · rename_i other
    exact bind_violated (opening_violated other)

theorem whileStatement_eq_run :
    Descent.whileStatement (Descent.block fuel 1) ⟨q, target⟩ =
      settled (whileStatement (some nestingLimit) q) target := by
  unfold whileStatement
  split
  · rename_i starts
    exact outcome_of_follows (follows_whileStatement (readsBlocks fuel 1) short
      (fun _ => single?_of_inside) rfl (allows_zero _) starts)
  · rename_i other
    exact bind_violated (opening_violated other)

end

theorem callStatement_eq (q : TokenQueue) (target : Statement) :
    Descent.callStatement ⟨q, target⟩ =
      match callStatement q with
      | .ok (read, left) => .value () ⟨left, read⟩
      | .error violation => .violated violation := by
  rw [Descent.callStatement, front_bind, demand_bind, callStatement]
  split
  · rename_i named
    rw [dequeue_bind, TokenQueue.dequeue_fst, assembleCall_ok named]
    rfl
  · rfl

end RobotLang.Parser
