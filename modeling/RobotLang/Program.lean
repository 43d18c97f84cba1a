import RobotLang.Program.Context
import RobotLang.Statement.Assembly

/-!
Programs: a name, the instructions that are declared, and the main body. Each part is replaced as a
whole and checked when it is; the part that was there before is returned.
-/

namespace RobotLang

structure Program where
  name : String
  context : Context
  body : Statement
deriving DecidableEq

namespace Program

def unnamed : Program := ⟨"Unnamed", .empty, .empty⟩

/-- The name of an instruction: an identifier that no primitive instruction has. -/
def isInstructionName (word : String) : Bool := isIdentifier word && !isPrimitive word

/-- What is wrong with an entry of a context, the name before the body. -/
def checkEntry (entry : String × Statement) : Except Violation Unit :=
  if !isInstructionName entry.1 then .error .contextName
  else if entry.2.kind ≠ .block then .error .contextBody
  else .ok ()

def setName (p : Program) (name : String) : Except Violation Program :=
  if isIdentifier name then .ok { p with name } else .error .programName

/-- The old context, and the program with the new one. Entries are checked in ascending order. -/
def replaceContext (p : Program) (context : Context) : Except Violation (Context × Program) := do
  context.entries.forM checkEntry
  return (p.context, { p with context })

def replaceBody (p : Program) (body : Statement) : Except Violation (Statement × Program) := do
  Statement.demandBlock "b" body
  return (p.body, { p with body })

def instruction? (p : Program) (name : String) : Option Statement := p.context.get? name

/-- What every program keeps: its name is an identifier, its instructions have names of their own that
are not primitive, and all bodies are blocks of the right shape. -/
structure WellFormed (p : Program) : Prop where
  name : isIdentifier p.name = true
  names : ∀ entry ∈ p.context.entries, isInstructionName entry.1 = true
  bodies : ∀ entry ∈ p.context.entries, entry.2.kind = .block ∧ entry.2.WellShaped
  body : p.body.kind = .block ∧ p.body.WellShaped

end Program

end RobotLang
