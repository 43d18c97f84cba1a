import RobotLang.Diagnostic
import RobotLang.Json
import RobotLang.Statement

/-!
Exchange of records as JSON.

Each record has one written form, an object with its fields in order, or a name. More forms are read: a
record may be the list of its fields, an object may have members that are no fields, and a name may be
the key of an object whose only member is null.
-/

namespace RobotLang

namespace Interchange

/-- The thing that a value names, by its name alone or as the only key of an object. -/
def readName? {α : Type} (ofName? : String → Option α) : Json → Option α
  | .string name => ofName? name
  | .object [(name, .null)] => ofName? name
  | _ => none

/-- The same where the value stands inside a tagged record; there an empty object may stand for null. -/
def readTaggedName? {α : Type} (ofName? : String → Option α) : Json → Option α
  | .object [(name, .object [])] => ofName? name
  | value => readName? ofName? value

def readText? : Json → Option String
  | .string s => some s
  | _ => none

/-- A coordinate of a place: a natural number that fits sixty-four bits. -/
def readCoordinate? : Json → Option Nat
  | .natural n => if n < UInt64.size then some n else none
  | _ => none

end Interchange

open Interchange

/-! ## Names -/

def Condition.toJson (c : Condition) : Json := .string c.name

def Condition.ofJson? : Json → Option Condition := readName? Condition.ofName?

def Kind.toJson (kind : Kind) : Json := .string kind.name

def Kind.ofName? (name : String) : Option Kind := Kind.all.find? (·.name == name)

def Kind.ofJson? : Json → Option Kind := readName? Kind.ofName?

def TokenClass.toJson (c : TokenClass) : Json := .string c.name

def TokenClass.ofName? (name : String) : Option TokenClass := TokenClass.all.find? (·.name == name)

def TokenClass.ofJson? : Json → Option TokenClass := readName? TokenClass.ofName?

def ErrorKind.toJson (kind : ErrorKind) : Json := .string kind.name

def ErrorKind.ofName? (name : String) : Option ErrorKind := ErrorKind.all.find? (·.name == name)

def ErrorKind.ofJson? : Json → Option ErrorKind := readName? ErrorKind.ofName?

/-! ## Places -/

def Span.toJson (s : Span) : Json :=
  .object [("line", .natural s.line), ("column", .natural s.column), ("offset", .natural s.offset)]

def Span.ofCoordinates? (line column offset : Json) : Option Span := do
  return ⟨← readCoordinate? line, ← readCoordinate? column, ← readCoordinate? offset⟩

def Span.ofJson? : Json → Option Span
  | .object members => do
    ofCoordinates? (← Json.member? members "line") (← Json.member? members "column")
      (← Json.member? members "offset")
  | .array [line, column, offset] => ofCoordinates? line column offset
  | _ => none

/-! ## Labels -/

def Label.toJson (label : Label) : Json :=
  let kind := ("kind", label.kind.toJson)
  match label with
  | .block => .object [kind]
  | .ifThen condition => .object [kind, ("condition", condition.toJson)]
  | .ifElse condition => .object [kind, ("condition", condition.toJson)]
  | .whileDo condition => .object [kind, ("condition", condition.toJson)]
  | .call instruction => .object [kind, ("instruction", .string instruction)]

def Label.readCondition? : Json → Option Condition := readTaggedName? Condition.ofName?

/-- The label of a kind with the field that it has, found under the field's name. -/
def Label.ofFields? (kind : Kind) (field? : String → Option Json) : Option Label :=
  match kind with
  | .block => some .block
  | .ifThen => ((field? "condition").bind readCondition?).map .ifThen
  | .ifElse => ((field? "condition").bind readCondition?).map .ifElse
  | .whileDo => ((field? "condition").bind readCondition?).map .whileDo
  | .call => ((field? "instruction").bind readText?).map .call

/-- A label is tagged with its kind, which has to be given by its name alone. -/
def Label.ofJson? : Json → Option Label
  | .object members => do
    let kind ← Kind.ofName? (← readText? (← Json.member? members "kind"))
    ofFields? kind (Json.member? members)
  | .array (kind :: fields) => do
    let kind ← Kind.ofName? (← readText? kind)
    match kind, fields with
    | .block, [] => some .block
    | .block, _ :: _ => none
    | kind, [field] => ofFields? kind fun _ => some field
    | _, _ => none
  | _ => none

/-! ## Diagnostics -/

def Diagnostic.toJson (d : Diagnostic) : Json :=
  .object [("kind", d.kind.toJson), ("message", .string d.message),
    ("span", (d.span.map Span.toJson).getD .null)]

/-- The place of a diagnostic, where null says that it has none. -/
def Diagnostic.readSpan? : Json → Option (Option Span)
  | .null => some none
  | value => (Span.ofJson? value).map some

/-- A missing place is the same as none. -/
def Diagnostic.ofJson? : Json → Option Diagnostic
  | .object members => do
    let kind ← ErrorKind.ofJson? (← Json.member? members "kind")
    let message ← readText? (← Json.member? members "message")
    return ⟨kind, message, ← readSpan? ((Json.member? members "span").getD .null)⟩
  | .array [kind, message, span] => do
    return ⟨← ErrorKind.ofJson? kind, ← readText? message, ← readSpan? span⟩
  | _ => none

end RobotLang
