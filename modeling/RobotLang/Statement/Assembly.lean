import RobotLang.Violation

/-!
Building statements from parts and taking them apart.

`Statement.assemble` checks one level and `Statement.parts` gives back what was put in. All other
operations are written with these two, so that the shape of trees is checked in one place. What an
operation takes out of a block or statement is returned beside what remains.
-/

namespace RobotLang.Statement

def assemble (label : Label) (children : List Statement) : Except Violation Statement :=
  if label.accepts (children.map kind) then .ok (node label children)
  else .error (.misfit (children.map kind) label.kind)

def parts (s : Statement) : Label × List Statement := (s.label, s.children)

/-- Go on only with a statement of the kind. -/
def demandKind (kind : Kind) (s : Statement) : Except Violation Unit :=
  if s.kind = kind then .ok () else .error (.notOfKind kind)

/-- Go on only with a block, which the operation knows under a name. -/
def demandBlock (argument : String) (s : Statement) : Except Violation Unit :=
  if s.kind = .block then .ok () else .error (.notBlock argument)

/-! ## Blocks as lists -/

def blockLength (block : Statement) : Except Violation Nat := do
  demandKind .block block
  return block.children.length

/-- Put a statement into a block, in front of the one at a position or at the end. -/
def insert (block : Statement) (position : Nat) (s : Statement) : Except Violation Statement := do
  demandKind .block block
  if s.kind = .block then throw .blockInBlock
  let (label, children) := block.parts
  if position ≤ children.length then assemble label (children.insertIdx position s)
  else throw .insertPosition

/-- Take the statement at a position out of a block: that statement, and the block without it. -/
def remove (block : Statement) (position : Nat) : Except Violation (Statement × Statement) := do
  demandKind .block block
  let (label, children) := block.parts
  match children[position]? with
  | some removed => return (removed, ← assemble label (children.eraseIdx position))
  | none => throw .removePosition

/-! ## One operation for each other kind -/

def assembleIf (condition : Condition) (block : Statement) : Except Violation Statement := do
  demandBlock "s" block
  assemble (.ifThen condition) [block]

def assembleIfElse (condition : Condition) (yes no : Statement) : Except Violation Statement := do
  demandBlock "s1" yes
  demandBlock "s2" no
  assemble (.ifElse condition) [yes, no]

def assembleWhile (condition : Condition) (block : Statement) : Except Violation Statement := do
  demandBlock "s" block
  assemble (.whileDo condition) [block]

def assembleCall (instruction : String) : Except Violation Statement :=
  if isIdentifier instruction then assemble (.call instruction) [] else .error .instructionName

def partsOfIf (s : Statement) : Except Violation (Condition × Statement) :=
  match s.parts with
  | (.ifThen condition, [block]) => .ok (condition, block)
  | (.ifThen _, children) => .error (.childCount 1 children.length)
  | _ => .error (.notOfKind .ifThen)

def partsOfIfElse (s : Statement) : Except Violation (Condition × Statement × Statement) :=
  match s.parts with
  | (.ifElse condition, [yes, no]) => .ok (condition, yes, no)
  | (.ifElse _, children) => .error (.childCount 2 children.length)
  | _ => .error (.notOfKind .ifElse)

def partsOfWhile (s : Statement) : Except Violation (Condition × Statement) :=
  match s.parts with
  | (.whileDo condition, [block]) => .ok (condition, block)
  | (.whileDo _, children) => .error (.childCount 1 children.length)
  | _ => .error (.notOfKind .whileDo)

def partsOfCall (s : Statement) : Except Violation String :=
  match s.parts with
  | (.call instruction, _) => .ok instruction
  | _ => .error (.notOfKind .call)

/-! ## Shape -/

theorem wellShaped_of_assemble {label : Label} {children : List Statement} {s : Statement}
    (h : assemble label children = .ok s) (below : ∀ child ∈ children, child.WellShaped) :
    s.WellShaped := by
  unfold assemble at h
  split at h
  · rename_i fits
    cases h
    exact ⟨fits, allWellShaped_iff.mpr below⟩
  · cases h

end RobotLang.Statement
