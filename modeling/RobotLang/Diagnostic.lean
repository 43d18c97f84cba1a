import RobotLang.Token

/-!
Diagnostics: what is wrong with a program and where.

A `Fault` is a cause, a `ParseError` a cause at a place, and a `Diagnostic` the record of kind, message
and place that is shown to people and exchanged with other tools. All wording stands in
`Fault.message`.
-/

namespace RobotLang

/-! ## Diagnostics as records -/

/-- The kinds of faults, as other tools tell them apart. -/
inductive ErrorKind where
  | expectedKeyword
  | invalidIdentifier
  | invalidCondition
  | primitiveName
  | duplicateInstruction
  | nameMismatch
  | trailingContent
  | unexpectedToken
  | nestingTooDeep
deriving Repr, DecidableEq

namespace ErrorKind

def all : List ErrorKind :=
  [expectedKeyword, invalidIdentifier, invalidCondition, primitiveName, duplicateInstruction,
   nameMismatch, trailingContent, unexpectedToken, nestingTooDeep]

/-- The name of the kind in exchange with other tools. -/
def name : ErrorKind → String
  | expectedKeyword => "expected_keyword"
  | invalidIdentifier => "invalid_identifier"
  | invalidCondition => "invalid_condition"
  | primitiveName => "primitive_name"
  | duplicateInstruction => "duplicate_instruction"
  | nameMismatch => "name_mismatch"
  | trailingContent => "trailing_content"
  | unexpectedToken => "unexpected_token"
  | nestingTooDeep => "nesting_too_deep"

def display : ErrorKind → String
  | expectedKeyword => "expected keyword"
  | invalidIdentifier => "invalid identifier"
  | invalidCondition => "invalid condition"
  | primitiveName => "primitive instruction name"
  | duplicateInstruction => "duplicate instruction"
  | nameMismatch => "name mismatch"
  | trailingContent => "trailing content"
  | unexpectedToken => "unexpected token"
  | nestingTooDeep => "nesting too deep"

end ErrorKind

/-- What is wrong, in words, and where, if that is known. -/
structure Diagnostic where
  kind : ErrorKind
  message : String
  span : Option Span
deriving Repr, DecidableEq

def Diagnostic.display (d : Diagnostic) : String :=
  match d.span with
  | some span => s!"{d.kind.display}: {d.message} at {span.display}"
  | none => s!"{d.kind.display}: {d.message}"

/-! ## Causes -/

inductive Found where
  | word (text : String)
  | endOfInput
deriving Repr, DecidableEq

/-- Words are shown between quotes, and nothing in them is escaped. -/
def Found.display : Found → String
  | word text => s!"\"{text}\""
  | endOfInput => "end of input"

/-- The two statements that begin with a keyword and test a condition. -/
inductive Construct where
  | «if»
  | «while»
deriving Repr, DecidableEq

def Construct.keyword : Construct → Keyword
  | «if» => .«if»
  | «while» => .«while»

inductive KeywordPlace where
  | programStart
  | afterProgramName (name : String)
  | beforeProgramBody
  | afterProgramBody
  | afterInstructionName (name : String)
  | afterInstructionBody (name : String)
  | afterCondition (construct : Construct)
  /-- The END that closes a statement. -/
  | afterBlock (construct : Construct)
  /-- The keyword of the statement behind its END. -/
  | afterEnd (construct : Construct)
deriving Repr, DecidableEq

namespace KeywordPlace

def keyword : KeywordPlace → Keyword
  | programStart => .program
  | afterProgramName _ => .is
  | beforeProgramBody => .begin
  | afterProgramBody => .«end»
  | afterInstructionName _ => .is
  | afterInstructionBody _ => .«end»
  | afterCondition .«if» => .«then»
  | afterCondition .«while» => .«do»
  | afterBlock _ => .«end»
  | afterEnd construct => construct.keyword

def display : KeywordPlace → String
  | programStart => "at start of program"
  | afterProgramName name => s!"after program name \"{name}\""
  | beforeProgramBody => "before program body"
  | afterProgramBody => "at end of program body"
  | afterInstructionName name => s!"after instruction name \"{name}\""
  | afterInstructionBody name => s!"to terminate instruction \"{name}\""
  | afterCondition construct => s!"after {construct.keyword.text} condition"
  | afterBlock construct => s!"to close {construct.keyword.text}"
  | afterEnd construct => s!"after END of {construct.keyword.text}"

end KeywordPlace

/-- What carries a name at its beginning and at its end. -/
inductive Named where
  | program
  | instruction
deriving Repr, DecidableEq

def Named.display : Named → String
  | program => "program"
  | instruction => "instruction"

inductive Fault where
  | keywordDue (place : KeywordPlace) (found : Found)
  /-- The first block of an IF ends with neither ELSE nor END. -/
  | branchEndDue (found : Found)
  | conditionDue (construct : Construct) (found : Found)
  | nameDue (named : Named) (found : Found)
  | statementDue (found : Found)
  | notACondition (word : String)
  | primitiveName (name : String)
  | duplicateInstruction (name : String)
  | closingName (named : Named) (name : String) (found : Found)
  | afterProgram (name : String) (found : Found)
  | afterStatements (found : Found)
  | nestedDeeperThan (limit : Nat)
deriving Repr, DecidableEq

namespace Fault

def kind : Fault → ErrorKind
  | keywordDue .. => .expectedKeyword
  | branchEndDue _ => .expectedKeyword
  | conditionDue .. => .invalidCondition
  | nameDue .. => .invalidIdentifier
  | statementDue _ => .unexpectedToken
  | notACondition _ => .invalidCondition
  | primitiveName _ => .primitiveName
  | duplicateInstruction _ => .duplicateInstruction
  | closingName .. => .nameMismatch
  | afterProgram .. => .trailingContent
  | afterStatements _ => .trailingContent
  | nestedDeeperThan _ => .nestingTooDeep

def message : Fault → String
  | keywordDue place found =>
    s!"expected \"{place.keyword.text}\" {place.display}, found {found.display}"
  | branchEndDue found => s!"expected \"ELSE\" or \"END\" in IF, found {found.display}"
  | conditionDue construct found =>
    s!"expected a condition after {construct.keyword.text}, found {found.display}"
  | nameDue named found =>
    s!"{found.display} is not a valid BL identifier for the {named.display} name"
  | statementDue found => s!"expected IF, WHILE, or identifier, found {found.display}"
  | notACondition word => s!"\"{word}\" is not a BL condition"
  | primitiveName name =>
    s!"instruction name \"{name}\" must not be a primitive instruction name"
  | duplicateInstruction name =>
    s!"duplicate instruction name \"{name}\"; each user-defined instruction must be unique"
  | closingName named name found =>
    s!"{named.display} ending name {found.display} must match beginning name \"{name}\""
  | afterProgram name found =>
    s!"extra tokens after end of program \"{name}\": found {found.display}"
  | afterStatements found => s!"unexpected {found.display} after statements"
  | nestedDeeperThan limit => s!"statements nested more than {limit} levels deep"

end Fault

/-- A fault and the place of the token that shows it. -/
structure ParseError where
  fault : Fault
  span : Option Span
deriving Repr, DecidableEq

/-- The error as a record for people and other tools. -/
def ParseError.diagnostic (e : ParseError) : Diagnostic := ⟨e.fault.kind, e.fault.message, e.span⟩

/-- The condition that a word names, whatever its case and separators. -/
def Condition.parse (word : String) : Except ParseError Condition :=
  match Condition.resolve? word with
  | some condition => .ok condition
  | none => .error ⟨.notACondition word, none⟩

theorem Condition.parse_spelling (c : Condition) : parse c.spelling = .ok c := by
  rw [parse, resolve?_spelling]

end RobotLang
