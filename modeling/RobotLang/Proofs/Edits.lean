import RobotLang.Proofs.Assembly

/-!
Operations that change one statement in place. The statement is the state of the operation; all that is
done to it is done with `assemble`, `disassemble` and `transferFrom`, and between the two halves of an
operation the statement is an empty block. An operation checks its own demands, and what it calls checks
again: the shape below a label, the number of statements below one, positions, the label itself.

On a statement that follows the shape table, an operation in place comes to what the function on whole
statements comes to (`Operation.run_perform`).
-/

namespace RobotLang

/-- Why an operation breaks off. -/
inductive Breach where
  | violation (violation : Violation)
  /-- The condition of a label is needed, and the label has none. -/
  | noCondition (kind : Kind)
  /-- The instruction of a label is needed, and the label is not that of a call. -/
  | noInstruction (label : Label)
  /-- A list is to be changed at a position that it does not have. -/
  | noPosition (position : Nat)
deriving Repr, DecidableEq

/-- Work on one statement. -/
abbrev Edit := StateT Statement (Except Breach)

namespace Edit

def demand (met : Prop) [Decidable met] (violation : Violation) : Edit Unit :=
  if met then pure () else throw (.violation violation)

/-! ## The kernel -/

def kind : Edit Kind := return (← get).kind

def newInstance : Edit Statement := return .empty

def assemble (label : Label) (children : List Statement) : Edit Unit := do
  demand (label.accepts (children.map Statement.kind) = true)
    (.misfit (children.map Statement.kind) label.kind)
  set (Statement.node label children)

def disassemble : Edit (Label × List Statement) := modifyGet fun this => (this.parts, .empty)

def transferFrom (source : Statement) : Edit Unit := set source

def clear : Edit Unit := do transferFrom (← newInstance)

/-! ## Blocks -/

def putAt (position : Nat) (s : Statement) (l : List Statement) : Edit (List Statement) :=
  if position ≤ l.length then return l.insertIdx position s else throw (.noPosition position)

def takeAt (position : Nat) (l : List Statement) : Edit (Statement × List Statement) :=
  match l[position]? with
  | some s => return (s, l.eraseIdx position)
  | none => throw (.noPosition position)

def length : Edit Nat := do
  demand ((← kind) = .block) (.notOfKind .block)
  let (label, children) ← disassemble
  assemble label children
  return children.length

def insert (position : Nat) (s : Statement) : Edit Unit := do
  demand ((← kind) = .block) (.notOfKind .block)
  demand (s.kind ≠ .block) .blockInBlock
  let (label, children) ← disassemble
  demand (position ≤ children.length) .insertPosition
  assemble label (← putAt position s children)

def remove (position : Nat) : Edit Statement := do
  demand ((← kind) = .block) (.notOfKind .block)
  let (label, children) ← disassemble
  demand (position < children.length) .removePosition
  let (removed, remaining) ← takeAt position children
  assemble label remaining
  return removed

/-! ## The other kinds -/

def assembleIf (condition : Condition) (block : Statement) : Edit Unit := do
  demand (block.kind = .block) (.notBlock "s")
  assemble (.ifThen condition) [block]

def assembleIfElse (condition : Condition) (yes no : Statement) : Edit Unit := do
  demand (yes.kind = .block) (.notBlock "s1")
  demand (no.kind = .block) (.notBlock "s2")
  assemble (.ifElse condition) [yes, no]

def assembleWhile (condition : Condition) (block : Statement) : Edit Unit := do
  demand (block.kind = .block) (.notBlock "s")
  assemble (.whileDo condition) [block]

def assembleCall (instruction : String) : Edit Unit := do
  demand (isIdentifier instruction = true) .instructionName
  assemble (.call instruction) []

def labelCondition (label : Label) : Edit Condition :=
  match label.condition? with
  | some condition => return condition
  | none => throw (.noCondition label.kind)

def takeChildren (n : Nat) (children : List Statement) : Edit (Vector Statement n) :=
  if counted : children.length = n then return ⟨children.toArray, counted⟩
  else throw (.violation (.childCount n children.length))

/-- Take a statement of a kind apart into its condition and the statements below it. -/
def disassembleConditional (demanded : Kind) (n : Nat) : Edit (Condition × Vector Statement n) := do
  demand ((← kind) = demanded) (.notOfKind demanded)
  let (label, children) ← disassemble
  let condition ← labelCondition label
  return (condition, ← takeChildren n children)

def disassembleIf : Edit (Condition × Statement) := do
  let (condition, below) ← disassembleConditional .ifThen 1
  return (condition, below[0])

def disassembleIfElse : Edit (Condition × Statement × Statement) := do
  let (condition, below) ← disassembleConditional .ifElse 2
  return (condition, below[0], below[1])

def disassembleWhile : Edit (Condition × Statement) := do
  let (condition, below) ← disassembleConditional .whileDo 1
  return (condition, below[0])

def disassembleCall : Edit String := do
  demand ((← kind) = .call) (.notOfKind .call)
  match ← disassemble with
  | (.call instruction, _) => return instruction
  | (label, _) => throw (.noInstruction label)

/-! ## Steps -/

theorem bind_eq_ok {ε α β : Type} {first : Except ε α} {next : α → Except ε β} {b : β} :
    first >>= next = .ok b ↔ ∃ a, first = .ok a ∧ next a = .ok b := by
  cases first with
  | error e => exact iff_of_false nofun nofun
  | ok a =>
    constructor
    · intro h
      exact ⟨a, rfl, h⟩
    · rintro ⟨_, ⟨⟩, h⟩
      exact h

theorem mapError_bind {α β : Type} {first : Except Violation α} {next : α → Except Violation β} :
    (first >>= next).mapError Breach.violation =
      first.mapError .violation >>= fun a => (next a).mapError .violation := by
  cases first <;> rfl

variable {α : Type} {this : Statement}

theorem run_demand {met : Prop} [Decidable met] {violation : Violation} {next : Unit → Edit α} :
    (demand met violation >>= next).run this =
      if met then (next ()).run this else .error (.violation violation) := by
  unfold demand
  split <;> rfl

theorem run_kind {next : Kind → Edit α} :
    (kind >>= next).run this = (next this.kind).run this := rfl

theorem run_disassemble {label : Label} {children : List Statement}
    {next : Label × List Statement → Edit α} :
    (disassemble >>= next).run (.node label children) = (next (label, children)).run .empty := rfl

theorem run_met {met : Prop} [Decidable met] {violation : Violation} {next : Unit → Edit α}
    (h : met) : (demand met violation >>= next).run this = (next ()).run this := by
  rw [run_demand, if_pos h]

theorem run_unmet {met : Prop} [Decidable met] {violation : Violation} {next : Unit → Edit α}
    (h : ¬ met) :
    (demand met violation >>= next).run this = .error (.violation violation) := by
  rw [run_demand, if_neg h]

/-- A demand that is checked in place and on the whole statement. -/
theorem run_demand_eq {met : Prop} [Decidable met] {violation : Violation}
    {next : Unit → Edit α} {whole : Unit → Except Violation (α × Statement)}
    (h : met → (next ()).run this = (whole ()).mapError .violation) :
    (demand met violation >>= next).run this =
      ((if met then .ok () else .error violation) >>= whole).mapError .violation := by
  by_cases holds : met
  · rw [run_met holds, if_pos holds]
    exact h holds
  · rw [run_unmet holds, if_neg holds]
    rfl

theorem run_putAt {position : Nat} {s : Statement} {l : List Statement}
    {next : List Statement → Edit α} (inside : position ≤ l.length) :
    (putAt position s l >>= next).run this = (next (l.insertIdx position s)).run this := by
  rw [putAt, if_pos inside, pure_bind]

theorem run_takeAt {position : Nat} {l : List Statement}
    {next : Statement × List Statement → Edit α} (inside : position < l.length) :
    (takeAt position l >>= next).run this =
      (next (l[position], l.eraseIdx position)).run this := by
  rw [takeAt, List.getElem?_eq_getElem inside, pure_bind]

theorem run_assemble {label : Label} {children : List Statement} :
    (assemble label children).run this =
      ((Statement.assemble label children).map ((), ·)).mapError .violation := by
  unfold Statement.assemble
  split
  · rename_i fits
    exact run_met fits
  · rename_i misfit
    exact run_unmet misfit

theorem run_fit {label : Label} {children : List Statement}
    (row : (Statement.node label children).FollowsTable) :
    (assemble label children).run this = .ok ((), .node label children) :=
  run_met (Statement.accepts_iff.mpr row)

/-! ## Operations whose demands are met -/

section

variable {s block yes no : Statement} {c : Condition} {l : List Statement} {position : Nat}

theorem kind_block : (Statement.block l).kind = .block := rfl

theorem followsTable_insertIdx (row : (Statement.block l).FollowsTable) (notBlock : s.kind ≠ .block)
    (inside : position ≤ l.length) : (Statement.block (l.insertIdx position s)).FollowsTable := by
  intro child mem
  rcases (List.mem_insertIdx inside).mp mem with rfl | mem
  · exact notBlock
  · exact row child mem

theorem followsTable_eraseIdx (row : (Statement.block l).FollowsTable) :
    (Statement.block (l.eraseIdx position)).FollowsTable :=
  fun child mem => row child (List.mem_of_mem_eraseIdx mem)

theorem run_length (row : (Statement.block l).FollowsTable) :
    length.run (.block l) = .ok (l.length, .block l) := by
  rw [length, run_kind, run_met kind_block, Statement.block, run_disassemble, StateT.run_bind,
    run_fit row]
  rfl

theorem run_insert (row : (Statement.block l).FollowsTable) (notBlock : s.kind ≠ .block)
    (inside : position ≤ l.length) :
    (insert position s).run (.block l) = .ok ((), .block (l.insertIdx position s)) := by
  rw [insert, run_kind, run_met kind_block, run_met notBlock, Statement.block, run_disassemble,
    run_met inside, run_putAt inside]
  exact run_fit (followsTable_insertIdx row notBlock inside)

theorem run_remove (row : (Statement.block l).FollowsTable) (inside : position < l.length) :
    (remove position).run (.block l) = .ok (l[position], .block (l.eraseIdx position)) := by
  rw [remove, run_kind, run_met kind_block, Statement.block, run_disassemble, run_met inside,
    run_takeAt inside, StateT.run_bind, run_fit (followsTable_eraseIdx row)]
  rfl

theorem run_assembleIf (isBlock : block.kind = .block) :
    (assembleIf c block).run this = .ok ((), .node (.ifThen c) [block]) := by
  rw [assembleIf, run_met isBlock]
  exact run_fit ⟨_, rfl, isBlock⟩

theorem run_assembleIfElse (yesBlock : yes.kind = .block) (noBlock : no.kind = .block) :
    (assembleIfElse c yes no).run this = .ok ((), .node (.ifElse c) [yes, no]) := by
  rw [assembleIfElse, run_met yesBlock, run_met noBlock]
  exact run_fit ⟨_, _, rfl, yesBlock, noBlock⟩

theorem run_assembleWhile (isBlock : block.kind = .block) :
    (assembleWhile c block).run this = .ok ((), .node (.whileDo c) [block]) := by
  rw [assembleWhile, run_met isBlock]
  exact run_fit ⟨_, rfl, isBlock⟩

theorem run_assembleCall {instruction : String} (named : isIdentifier instruction = true) :
    (assembleCall instruction).run this = .ok ((), .call instruction) := by
  rw [assembleCall, run_met named]
  exact run_fit ⟨rfl, named⟩

theorem run_disassembleIf :
    disassembleIf.run (.node (.ifThen c) [block]) = .ok ((c, block), .empty) := rfl

theorem run_disassembleIfElse :
    disassembleIfElse.run (.node (.ifElse c) [yes, no]) = .ok ((c, yes, no), .empty) := rfl

theorem run_disassembleWhile :
    disassembleWhile.run (.node (.whileDo c) [block]) = .ok ((c, block), .empty) := rfl

end

/-! ## All operations -/

/-- An operation with its arguments. -/
inductive Operation where
  | newInstance
  | assemble (label : Label) (children : List Statement)
  | disassemble
  | transferFrom (source : Statement)
  | clear
  | length
  | insert (position : Nat) (s : Statement)
  | remove (position : Nat)
  | assembleIf (condition : Condition) (block : Statement)
  | assembleIfElse (condition : Condition) (yes no : Statement)
  | assembleWhile (condition : Condition) (block : Statement)
  | assembleCall (instruction : String)
  | disassembleIf
  | disassembleIfElse
  | disassembleWhile
  | disassembleCall

namespace Operation

open Statement

/-- What an operation gives back. -/
abbrev Answer : Operation → Type
  | newInstance => Statement
  | disassemble => Label × List Statement
  | length => Nat
  | remove _ => Statement
  | disassembleIf => Condition × Statement
  | disassembleIfElse => Condition × Statement × Statement
  | disassembleWhile => Condition × Statement
  | disassembleCall => String
  | _ => Unit

def perform : (o : Operation) → Edit o.Answer
  | newInstance => Edit.newInstance
  | assemble label children => Edit.assemble label children
  | disassemble => Edit.disassemble
  | transferFrom source => Edit.transferFrom source
  | clear => Edit.clear
  | length => Edit.length
  | insert position s => Edit.insert position s
  | remove position => Edit.remove position
  | assembleIf condition block => Edit.assembleIf condition block
  | assembleIfElse condition yes no => Edit.assembleIfElse condition yes no
  | assembleWhile condition block => Edit.assembleWhile condition block
  | assembleCall instruction => Edit.assembleCall instruction
  | disassembleIf => Edit.disassembleIf
  | disassembleIfElse => Edit.disassembleIfElse
  | disassembleWhile => Edit.disassembleWhile
  | disassembleCall => Edit.disassembleCall

/-- The answer of an operation on a whole statement, and what becomes of the statement. -/
def outcome : (o : Operation) → Statement → Except Violation (o.Answer × Statement)
  | newInstance, this => .ok (.empty, this)
  | assemble label children, _ => return ((), ← Statement.assemble label children)
  | disassemble, this => .ok (this.parts, .empty)
  | transferFrom source, _ => .ok ((), source)
  | clear, _ => .ok ((), .empty)
  | length, this => return (← this.blockLength, this)
  | insert position s, this => return ((), ← this.insert position s)
  | remove position, this => this.remove position
  | assembleIf condition block, _ => return ((), ← Statement.assembleIf condition block)
  | assembleIfElse condition yes no, _ => return ((), ← Statement.assembleIfElse condition yes no)
  | assembleWhile condition block, _ => return ((), ← Statement.assembleWhile condition block)
  | assembleCall instruction, _ => return ((), ← Statement.assembleCall instruction)
  | disassembleIf, this => return (← this.partsOfIf, .empty)
  | disassembleIfElse, this => return (← this.partsOfIfElse, .empty)
  | disassembleWhile, this => return (← this.partsOfWhile, .empty)
  | disassembleCall, this => return (← this.partsOfCall, .empty)

theorem run_perform (o : Operation) {this : Statement} (row : this.FollowsTable) :
    o.perform.run this = (o.outcome this).mapError .violation := by
  obtain ⟨label, children⟩ := this
  cases o with
  | newInstance | disassemble | transferFrom | clear => rfl
  | assemble label children => exact run_assemble
  | length =>
    simp only [perform, outcome, Edit.length, Statement.blockLength, Statement.demandKind, run_kind,
      bind_assoc]
    apply run_demand_eq
    intro _
    rw [run_disassemble, StateT.run_bind, run_fit row]
    rfl
  | insert position s =>
    simp only [perform, outcome, Edit.insert, Statement.insert, Statement.demandKind, run_kind,
      bind_assoc]
    apply run_demand_eq
    intro _
    by_cases nested : s.kind = .block
    · rw [run_unmet (not_not_intro nested), if_pos nested]
      rfl
    · rw [run_met nested, if_neg nested, run_disassemble]
      by_cases inside : position ≤ children.length
      · rw [run_met inside, run_putAt inside, run_assemble]
        simp only [Statement.parts, Statement.children, Statement.label, inside, if_true]
        rfl
      · rw [run_unmet inside]
        simp only [Statement.parts, Statement.children, Statement.label, inside, if_false]
        rfl
  | remove position =>
    simp only [perform, outcome, Edit.remove, Statement.remove, Statement.demandKind, run_kind]
    apply run_demand_eq
    intro _
    rw [run_disassemble]
    simp only [Statement.parts, Statement.children, Statement.label]
    by_cases inside : position < children.length
    · rw [run_met inside, run_takeAt inside, StateT.run_bind, run_assemble,
        List.getElem?_eq_getElem inside]
      cases Statement.assemble label (children.eraseIdx position) <;> rfl
    · rw [run_unmet inside, List.getElem?_eq_none (Nat.le_of_not_lt inside)]
      rfl
  | assembleIf condition block | assembleWhile condition block =>
    simp only [perform, outcome, Edit.assembleIf, Statement.assembleIf, Edit.assembleWhile,
      Statement.assembleWhile, Statement.demandBlock, bind_assoc]
    apply run_demand_eq
    intro _
    exact run_assemble
  | assembleIfElse condition yes no =>
    simp only [perform, outcome, Edit.assembleIfElse, Statement.assembleIfElse,
      Statement.demandBlock, bind_assoc]
    apply run_demand_eq
    intro _
    apply run_demand_eq
    intro _
    exact run_assemble
  | assembleCall instruction =>
    by_cases named : isIdentifier instruction = true
    · simp only [perform, outcome, Edit.assembleCall, Statement.assembleCall, run_met named, named,
        if_true]
      exact run_assemble
    · simp only [perform, outcome, Edit.assembleCall, Statement.assembleCall, run_unmet named,
        named]
      rfl
  | disassembleIf | disassembleWhile =>
    cases label with
    | ifThen c | whileDo c =>
      obtain ⟨block, rfl, -⟩ := row
      rfl
    | _ => rfl
  | disassembleIfElse =>
    cases label with
    | ifElse c =>
      obtain ⟨yes, no, rfl, -⟩ := row
      rfl
    | _ => rfl
  | disassembleCall => cases label <;> rfl

end Operation

end Edit

end RobotLang
