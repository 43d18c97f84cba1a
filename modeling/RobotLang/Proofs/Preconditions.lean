import RobotLang.Proofs.Edits
import RobotLang.Proofs.Reachable

/-!
What operations on statements demand. `Operation.demands` lists the preconditions of each operation, in
the order in which they are checked, each with what is said when it is not met. On statements of the
right shape an operation breaks off if and only if one of them is not met, and then for the first that
is not. So whatever is checked once more behind them is met: the shape that `assemble` demands of the
statements below a label, their number, the position in them, and that the label has a condition or an
instruction.

Main statement: `Operation.fails_iff_unmet`.
-/

namespace RobotLang.Edit

open Statement

structure Demand where
  met : Prop
  violation : Violation

/-- The first demand that is not met says this. -/
inductive FirstUnmet : List Demand → Violation → Prop
  | here {d : Demand} {rest : List Demand} (unmet : ¬ d.met) : FirstUnmet (d :: rest) d.violation
  | behind {d : Demand} {rest : List Demand} {violation : Violation} (met : d.met)
      (later : FirstUnmet rest violation) : FirstUnmet (d :: rest) violation

theorem FirstUnmet.exists_unmet {demands : List Demand} {violation : Violation}
    (h : FirstUnmet demands violation) : ∃ d ∈ demands, ¬ d.met := by
  induction h with
  | here unmet => exact ⟨_, List.mem_cons_self, unmet⟩
  | behind _ _ ih =>
    obtain ⟨d, mem, unmet⟩ := ih
    exact ⟨d, List.mem_cons_of_mem _ mem, unmet⟩

theorem exists_firstUnmet {demands : List Demand} {d : Demand} (mem : d ∈ demands)
    (unmet : ¬ d.met) : ∃ violation, FirstUnmet demands violation := by
  induction demands with
  | nil => cases mem
  | cons first rest ih =>
    by_cases met : first.met
    · rcases List.mem_cons.mp mem with rfl | mem
      · exact absurd met unmet
      · obtain ⟨violation, later⟩ := ih mem
        exact ⟨violation, .behind met later⟩
    · exact ⟨_, .here met⟩

/-! ## Outcomes -/

/-- The demands stand between the work and its outcome: it breaks off for the first that is not met. -/
def Enforces {α : Type} (outcome : Except Breach α) (demands : List Demand) : Prop :=
  ∀ breach, outcome = .error breach ↔
    ∃ violation, FirstUnmet demands violation ∧ breach = .violation violation

section

variable {α : Type} {this : Statement} {demands : List Demand}

theorem enforces_ok {a : α} : Enforces (.ok a) [] := by
  intro breach
  refine iff_of_false nofun ?_
  rintro ⟨_, unmet, -⟩
  cases unmet

theorem enforces_demand {met : Prop} [Decidable met] {violation : Violation}
    {next : Unit → Edit α} (h : met → Enforces ((next ()).run this) demands) :
    Enforces ((demand met violation >>= next).run this) (⟨met, violation⟩ :: demands) := by
  intro breach
  by_cases holds : met
  · rw [run_met holds, h holds breach]
    constructor
    · rintro ⟨v, unmet, rfl⟩
      exact ⟨v, .behind holds unmet, rfl⟩
    · rintro ⟨v, unmet, rfl⟩
      cases unmet with
      | here unmet => exact absurd holds unmet
      | behind _ later => exact ⟨v, later, rfl⟩
  · rw [run_unmet holds]
    constructor
    · intro h
      cases h
      exact ⟨violation, .here holds, rfl⟩
    · rintro ⟨v, unmet, rfl⟩
      cases unmet with
      | here => rfl
      | behind met _ => exact absurd met holds

end

theorem Enforces.fails_iff {α : Type} {outcome : Except Breach α} {demands : List Demand}
    (h : Enforces outcome demands) :
    (∃ breach, outcome = .error breach) ↔ ∃ d ∈ demands, ¬ d.met := by
  constructor
  · rintro ⟨breach, failed⟩
    obtain ⟨_, unmet, -⟩ := (h breach).mp failed
    exact unmet.exists_unmet
  · rintro ⟨d, mem, unmet⟩
    obtain ⟨violation, first⟩ := exists_firstUnmet mem unmet
    exact ⟨_, (h _).mpr ⟨violation, first, rfl⟩⟩

theorem Enforces.met {α : Type} {outcome : Except Breach α} {demands : List Demand} {a : α}
    (h : Enforces outcome demands) (done : outcome = .ok a) : ∀ d ∈ demands, d.met := by
  intro d mem
  apply Classical.byContradiction
  intro unmet
  obtain ⟨breach, failed⟩ := h.fails_iff.mpr ⟨d, mem, unmet⟩
  rw [done] at failed
  cases failed

/-! ## The demands of each operation -/

def Operation.demands : Operation → Statement → List Demand
  | newInstance, _ | disassemble, _ | transferFrom _, _ | clear, _ => []
  | assemble label children, _ =>
    [⟨(node label children).FollowsTable, .misfit (children.map Statement.kind) label.kind⟩]
  | length, this => [⟨this.kind = .block, .notOfKind .block⟩]
  | insert position s, this =>
    [⟨this.kind = .block, .notOfKind .block⟩, ⟨s.kind ≠ .block, .blockInBlock⟩,
      ⟨position ≤ this.children.length, .insertPosition⟩]
  | remove position, this =>
    [⟨this.kind = .block, .notOfKind .block⟩, ⟨position < this.children.length, .removePosition⟩]
  | assembleIf _ block, _ => [⟨block.kind = .block, .notBlock "s"⟩]
  | assembleIfElse _ yes no, _ =>
    [⟨yes.kind = .block, .notBlock "s1"⟩, ⟨no.kind = .block, .notBlock "s2"⟩]
  | assembleWhile _ block, _ => [⟨block.kind = .block, .notBlock "s"⟩]
  | assembleCall instruction, _ => [⟨isIdentifier instruction = true, .instructionName⟩]
  | disassembleIf, this => [⟨this.kind = .ifThen, .notOfKind .ifThen⟩]
  | disassembleIfElse, this => [⟨this.kind = .ifElse, .notOfKind .ifElse⟩]
  | disassembleWhile, this => [⟨this.kind = .whileDo, .notOfKind .whileDo⟩]
  | disassembleCall, this => [⟨this.kind = .call, .notOfKind .call⟩]

theorem enforces_assemble {label : Label} {children : List Statement} {this : Statement}
    (row : (node label children).FollowsTable) :
    Enforces ((assemble label children).run this) [] := by
  rw [run_fit row]
  exact enforces_ok

theorem enforces_perform (o : Operation) {this : Statement} (row : this.FollowsTable) :
    Enforces (o.perform.run this) (o.demands this) := by
  obtain ⟨label, children⟩ := this
  cases o with
  | newInstance | disassemble | transferFrom | clear => exact enforces_ok
  | assemble label children =>
    simp only [Operation.perform, Operation.demands, Edit.assemble, ← accepts_iff]
    exact enforces_demand fun _ => enforces_ok
  | length =>
    simp only [Operation.perform, Operation.demands, Edit.length, run_kind]
    apply enforces_demand
    intro _
    rw [run_disassemble, StateT.run_bind, run_fit row]
    exact enforces_ok
  | insert position s =>
    simp only [Operation.perform, Operation.demands, Edit.insert, run_kind]
    apply enforces_demand
    intro isBlock
    apply enforces_demand
    intro notBlock
    cases eq_block_of_kind isBlock
    rw [run_disassemble]
    apply enforces_demand
    intro inside
    rw [run_putAt inside]
    exact enforces_assemble (followsTable_insertIdx row notBlock inside)
  | remove position =>
    simp only [Operation.perform, Operation.demands, Edit.remove, run_kind]
    apply enforces_demand
    intro isBlock
    cases eq_block_of_kind isBlock
    rw [run_disassemble]
    apply enforces_demand
    intro inside
    rw [run_takeAt inside, StateT.run_bind, run_fit (followsTable_eraseIdx row)]
    exact enforces_ok
  | assembleIf condition block | assembleWhile condition block =>
    simp only [Operation.perform, Operation.demands, Edit.assembleIf, Edit.assembleWhile]
    apply enforces_demand
    intro isBlock
    exact enforces_assemble ⟨block, rfl, isBlock⟩
  | assembleIfElse condition yes no =>
    simp only [Operation.perform, Operation.demands, Edit.assembleIfElse]
    apply enforces_demand
    intro yesBlock
    apply enforces_demand
    intro noBlock
    exact enforces_assemble ⟨yes, no, rfl, yesBlock, noBlock⟩
  | assembleCall instruction =>
    simp only [Operation.perform, Operation.demands, Edit.assembleCall]
    apply enforces_demand
    intro named
    exact enforces_assemble ⟨rfl, named⟩
  | disassembleIf | disassembleWhile =>
    simp only [Operation.perform, Operation.demands, Edit.disassembleIf, Edit.disassembleWhile,
      disassembleConditional, run_kind, bind_assoc]
    apply enforces_demand
    intro ofKind
    cases label <;> cases ofKind
    obtain ⟨block, rfl, -⟩ := row
    exact enforces_ok
  | disassembleIfElse =>
    simp only [Operation.perform, Operation.demands, Edit.disassembleIfElse,
      disassembleConditional, run_kind, bind_assoc]
    apply enforces_demand
    intro ofKind
    cases label <;> cases ofKind
    obtain ⟨yes, no, rfl, -⟩ := row
    exact enforces_ok
  | disassembleCall =>
    simp only [Operation.perform, Operation.demands, Edit.disassembleCall, run_kind]
    apply enforces_demand
    intro ofKind
    cases label <;> cases ofKind
    exact enforces_ok

/-- An operation on a statement of the right shape breaks off if and only if one of its demands is not
met, for the first that is not and for nothing behind it; and it comes to what the function on whole
statements comes to. -/
theorem Operation.fails_iff_unmet (o : Operation) {this : Statement} (shaped : this.WellShaped) :
    ((∃ breach, o.perform.run this = .error breach) ↔ ∃ d ∈ o.demands this, ¬ d.met) ∧
      (∀ breach, o.perform.run this = .error breach →
        ∃ violation, FirstUnmet (o.demands this) violation ∧ breach = .violation violation) ∧
      o.perform.run this = (o.outcome this).mapError .violation := by
  have enforced := enforces_perform o shaped.row
  refine ⟨enforced.fails_iff, fun breach failed => ?_, o.run_perform shaped.row⟩
  exact (enforced breach).mp failed

/-- The block of `enclosing`, which has one statement. -/
theorem Operation.fails_iff_unmet_enclosing :
    let outer := (Workbench.empty.run Workbench.enclosing).statement "outer"
    outer.WellShaped ∧
      (∃ breach, (insert 2 (.call "move")).perform.run outer = .error breach) ∧
      ¬ ∃ breach, (insert 1 (.call "move")).perform.run outer = .error breach := by
  intro outer
  have reached := Workbench.Reachable.empty.run Workbench.enclosing
  have shaped : outer.WellShaped := reached.holds (.register "outer")
  have one : outer.children.length = 1 := by decide +kernel
  have isBlock : outer.kind = .block := by decide +kernel
  refine ⟨shaped, (fails_iff_unmet (insert 2 (.call "move")) shaped).1.mpr ?_, ?_⟩
  · exact ⟨⟨2 ≤ outer.children.length, .insertPosition⟩, by simp [demands], by simp [one]⟩
  · rw [(fails_iff_unmet (insert 1 (.call "move")) shaped).1]
    rintro ⟨d, mem, unmet⟩
    simp only [demands, List.mem_cons, List.not_mem_nil, or_false] at mem
    rcases mem with rfl | rfl | rfl
    · exact unmet isBlock
    · exact unmet (by decide)
    · exact unmet (Nat.le_of_eq one.symm)

end RobotLang.Edit
