import RobotLang.Fingerprint
import RobotLang.Interchange.Tree
import RobotLang.Json.Writer

/-!
Services for programs that embed the parser. A host asks with the text of a program and is answered
with a text or a message. There are two kinds of hosts: those that hand over texts as bytes closed by a
zero, and those that have texts of their own and expect an error to be raised.
-/

namespace RobotLang.Embedding

inductive Service where
  /-- The program as JSON. -/
  | tree
  | format
  | fingerprint
  /-- A report as JSON, whether or not the text is a program. -/
  | check
deriving Repr, DecidableEq

/-- Answer with a text; `arrange` puts the program as JSON into the form that the host expects. -/
def Service.answer (arrange : Json → Json) (service : Service) (text : String) :
    Except Diagnostic String :=
  let onProgram (show? : Program → String) : Except Diagnostic String :=
    match Program.parse text with
    | .ok p => .ok (show? p)
    | .error e => .error e.diagnostic
  match service with
  | .tree => onProgram fun p => (arrange p.toJson).spread
  | .format => onProgram Program.text
  | .fingerprint => onProgram Program.fingerprint
  | .check => .ok (checkReport text).sorted.spread

/-! ## Hosts with texts of their own -/

/-- Answer a host that raises diagnostics as errors. Members of objects come in ascending order. -/
def Service.answerText (service : Service) (text : String) : Except Diagnostic String :=
  service.answer Json.sorted text

/-! ## Hosts that hand over bytes -/

/-- What a host gets that has no errors to raise: a result or a message, never both. -/
structure Reply where
  result : Option String
  error : Option String
deriving Repr, DecidableEq

/-- The text that bytes hold up to the first zero. -/
def readBytes? (bytes : List UInt8) : Option String :=
  Text.decode? (bytes.takeWhile (· ≠ 0))

/-- The text as it can be closed by a zero: without the zeros inside it. -/
def withoutZeros (text : String) : String := String.ofList (text.toList.filter (· ≠ '\x00'))

def Reply.ofResult : Except String String → Reply
  | .ok result => ⟨some (withoutZeros result), none⟩
  | .error message => ⟨none, some (withoutZeros message)⟩

/-- Answer a host that hands over bytes, or nothing. -/
def Service.answerBytes (service : Service) (bytes : Option (List UInt8)) : Reply :=
  match bytes.bind readBytes? with
  | none => .ofResult (.error "null or invalid UTF-8 input")
  | some text => .ofResult ((service.answer id text).mapError Diagnostic.display)

end RobotLang.Embedding
