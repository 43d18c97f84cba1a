import RobotLang.Layout
import RobotLang.Proofs.Shape

/-!
Canonical text with checked steps. Where the writer goes to a statement below by its number, that
statement is looked up, and when there is none the writer breaks off (`Layout.writeChild`). A
statement of the right shape has all that its writer goes to, so the writing comes to its end and to
the canonical text (`Statement.checkedText_eq`, `Program.checkedText_eq`).
-/

namespace RobotLang

namespace Layout

mutual

/-- Write a statement; nothing, if a statement below it is missing. -/
def writeChecked (indent : Nat) (out : String) : Statement → Option String
  | .node .block children => writeEach indent out children
  | .node (.ifThen c) children => do
    let head := writeLine indent s!"IF {c.spelling} THEN" out
    let yes ← writeChild (indent + indentWidth) head children 0
    return writeLine indent "END IF" yes
  | .node (.ifElse c) children => do
    let head := writeLine indent s!"IF {c.spelling} THEN" out
    let yes ← writeChild (indent + indentWidth) head children 0
    let no ← writeChild (indent + indentWidth) (writeLine indent "ELSE" yes) children 1
    return writeLine indent "END IF" no
  | .node (.whileDo c) children => do
    let head := writeLine indent s!"WHILE {c.spelling} DO" out
    let body ← writeChild (indent + indentWidth) head children 0
    return writeLine indent "END WHILE" body
  | .node (.call instruction) _ => some (writeLine indent instruction out)

def writeEach (indent : Nat) (out : String) : List Statement → Option String
  | [] => some out
  | s :: ss => do
    let out ← writeChecked indent out s
    writeEach indent out ss

/-- Write the statement that has the number among those given. -/
def writeChild (indent : Nat) (out : String) : List Statement → Nat → Option String
  | [], _ => none
  | s :: _, 0 => writeChecked indent out s
  | _ :: ss, n + 1 => writeChild indent out ss n

end

def writeDeclarationChecked (out : String) (entry : String × Statement) : Option String := do
  let head := writeLine indentWidth s!"INSTRUCTION {entry.1} IS" out
  let body ← writeChecked (2 * indentWidth) head entry.2
  return writeLine indentWidth s!"END {entry.1}" body ++ "\n"

theorem writeChild_eq (indent : Nat) (out : String) (children : List Statement) (n : Nat) :
    writeChild indent out children n = children[n]?.bind (writeChecked indent out) := by
  induction children generalizing n with
  | nil => simp [writeChild]
  | cons s ss ih =>
    cases n with
    | zero => simp [writeChild]
    | succ n => simpa [writeChild] using ih n

end Layout

/-- The canonical text of a statement; nothing, if a statement is missing somewhere. -/
def Statement.checkedText (s : Statement) (indent : Nat) : Option String :=
  Layout.writeChecked indent "" s

def Program.checkedText (p : Program) : Option String := do
  let head := Layout.writeLine 0 s!"PROGRAM {p.name} IS" "" ++ "\n"
  let declarations ← p.context.entries.foldlM Layout.writeDeclarationChecked head
  let body ← Layout.writeChecked Layout.indentWidth (Layout.writeLine 0 "BEGIN" declarations) p.body
  return Layout.writeLine 0 s!"END {p.name}" body

namespace Layout

open Statement

theorem writeEach_eq {body : List Statement} (shaped : Body body) (indent : Nat) (out : String) :
    writeEach indent out body = some (writeAll indent out body) := by
  induction shaped generalizing indent out with
  | nil => rfl
  | call named _ ih => simp [writeEach, writeChecked, writeAll, write, Statement.call, ih]
  | ifThen _ _ inside ih =>
    simp [writeEach, writeChecked, writeChild_eq, writeAll, write, Statement.block, inside, ih]
  | ifElse _ _ _ insideYes insideNo ih =>
    simp [writeEach, writeChecked, writeChild_eq, writeAll, write, Statement.block, insideYes,
      insideNo, ih]
  | whileDo _ _ inside ih =>
    simp [writeEach, writeChecked, writeChild_eq, writeAll, write, Statement.block, inside, ih]

theorem writeChecked_eq {s : Statement} (shaped : s.WellShaped) (indent : Nat) (out : String) :
    writeChecked indent out s = some (write indent out s) := by
  by_cases isBlock : s.kind = .block
  · rw [eq_block_of_kind isBlock] at shaped ⊢
    exact writeEach_eq (wellShaped_block_iff.mp shaped) indent out
  · have item : Body [s] := body_of_items [s] (by simpa using ⟨isBlock, shaped⟩)
    simpa [writeEach, writeAll] using writeEach_eq item indent out

end Layout

theorem Statement.checkedText_eq {s : Statement} (shaped : s.WellShaped) (indent : Nat) :
    s.checkedText indent = some (s.text indent) :=
  Layout.writeChecked_eq shaped indent ""

theorem Program.checkedText_eq {p : Program} (formed : p.WellFormed) :
    p.checkedText = some p.text := by
  have declarations : ∀ head, p.context.entries.foldlM Layout.writeDeclarationChecked head =
      some (p.context.entries.foldl Layout.writeDeclaration head) := by
    have shaped := fun entry mem => (formed.bodies entry mem).2
    generalize p.context.entries = entries at shaped
    induction entries with
    | nil => intro head; rfl
    | cons entry entries ih =>
      obtain ⟨first, after⟩ := List.forall_mem_cons.mp shaped
      intro head
      simp [Layout.writeDeclarationChecked, Layout.writeDeclaration, Layout.writeChecked_eq first,
        ih after]
  simp [checkedText, text, declarations, Layout.writeChecked_eq formed.body.2]

end RobotLang
