import RobotLang.Interchange.Record
import RobotLang.Parser.Program

/-!
Programs, statements and the outcome of a check as JSON.
-/

namespace RobotLang

mutual

/-- A statement is its label and the statements below it. -/
def Statement.toJson : Statement → Json
  | .node label children =>
    .object [("label", label.toJson), ("children", .array (Statement.toJsonAll children))]

def Statement.toJsonAll : List Statement → List Json
  | [] => []
  | s :: ss => Statement.toJson s :: Statement.toJsonAll ss

end

/-- One member for each instruction, in the order of their names. -/
def Context.toJson (context : Context) : Json :=
  .object (context.entries.map fun entry => (entry.1, entry.2.toJson))

def Program.toJson (p : Program) : Json :=
  .object [("name", .string p.name), ("context", p.context.toJson), ("body", p.body.toJson)]

/-- The diagnostic with line and column of its own. -/
def Diagnostic.summary (d : Diagnostic) : Json :=
  .object [("kind", d.kind.toJson), ("message", .string d.message),
    ("line", .ofNatural? (d.span.map (·.line))), ("column", .ofNatural? (d.span.map (·.column)))]

/-- Whether a text is a program, and what is wrong with it if it is not. -/
def checkReport (text : String) : Json :=
  match Program.parse text with
  | .ok _ => .object [("valid", .bool true), ("error", .null)]
  | .error e => .object [("valid", .bool false), ("error", e.diagnostic.summary)]

end RobotLang
