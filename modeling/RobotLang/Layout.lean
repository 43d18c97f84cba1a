import RobotLang.Program

/-!
Canonical text. Each statement stands on lines of its own, what an IF or WHILE encloses stands two
spaces further in, and instructions come in ascending order of their names. A text is written from the
left, each piece behind the text written so far.
-/

namespace RobotLang

namespace Layout

/-- How much further in enclosed statements stand. -/
def indentWidth : Nat := 2

def spaces (n : Nat) : String := String.ofList (List.replicate n ' ')

def writeLine (indent : Nat) (text out : String) : String := out ++ spaces indent ++ text ++ "\n"

mutual

def write (indent : Nat) (out : String) : Statement → String
  | .node .block children => writeAll indent out children
  | .node (.ifThen c) children =>
    let head := writeLine indent s!"IF {c.spelling} THEN" out
    writeLine indent "END IF" (writeAll (indent + indentWidth) head children)
  | .node (.ifElse c) (yes :: no) =>
    let head := writeLine indent s!"IF {c.spelling} THEN" out
    let middle := writeLine indent "ELSE" (write (indent + indentWidth) head yes)
    writeLine indent "END IF" (writeAll (indent + indentWidth) middle no)
  | .node (.ifElse c) [] =>
    let head := writeLine indent s!"IF {c.spelling} THEN" out
    writeLine indent "END IF" (writeLine indent "ELSE" head)
  | .node (.whileDo c) children =>
    let head := writeLine indent s!"WHILE {c.spelling} DO" out
    writeLine indent "END WHILE" (writeAll (indent + indentWidth) head children)
  | .node (.call instruction) _ => writeLine indent instruction out

def writeAll (indent : Nat) (out : String) : List Statement → String
  | [] => out
  | s :: ss => writeAll indent (write indent out s) ss

end

def writeDeclaration (out : String) (entry : String × Statement) : String :=
  let head := writeLine indentWidth s!"INSTRUCTION {entry.1} IS" out
  writeLine indentWidth s!"END {entry.1}" (write (2 * indentWidth) head entry.2) ++ "\n"

end Layout

/-- The canonical text of a statement, all of it indented by a number of spaces. -/
def Statement.text (s : Statement) (indent : Nat) : String := Layout.write indent "" s

def Program.text (p : Program) : String :=
  let head := Layout.writeLine 0 s!"PROGRAM {p.name} IS" "" ++ "\n"
  let declarations := p.context.entries.foldl Layout.writeDeclaration head
  let body := Layout.write Layout.indentWidth (Layout.writeLine 0 "BEGIN" declarations) p.body
  Layout.writeLine 0 s!"END {p.name}" body

end RobotLang
