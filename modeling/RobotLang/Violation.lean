import RobotLang.Statement.Shape

/-!
Broken preconditions. Every operation on statements and programs that demands something of its
arguments refuses with the demand that was not met; nothing is changed then.
-/

namespace RobotLang

/-- A demand of an operation that its arguments do not meet. -/
inductive Violation where
  | notOfKind (demanded : Kind)
  | misfit (below : List Kind) (kind : Kind)
  /-- A statement to be put into a block is itself a block. -/
  | blockInBlock
  | insertPosition
  | removePosition
  /-- An argument, under the name it has in the operation, is not a block. -/
  | notBlock (argument : String)
  | instructionName
  | programName
  | contextName
  | contextBody
  /-- The queue does not begin with the keyword that the statement begins with. -/
  | frontKeyword (keyword : Keyword)
  | frontIdentifier
  /-- A statement has another number of statements below it than its kind has. -/
  | childCount (demanded found : Nat)
deriving Repr, DecidableEq

/-- The kind as one word in mixed case. -/
def Kind.caption : Kind → String
  | .block => "Block"
  | .ifThen => "If"
  | .ifElse => "IfElse"
  | .whileDo => "While"
  | .call => "Call"

/-- The name of the kind behind the article that it takes. -/
def Kind.withArticle : Kind → String
  | .ifThen => "an IF"
  | .ifElse => "an IF_ELSE"
  | kind => "a " ++ kind.name

def Violation.message : Violation → String
  | notOfKind demanded => s!"Violation of: [this is {demanded.withArticle} statement]"
  | misfit below kind =>
    let captions := ", ".intercalate (below.map Kind.caption)
    s!"Violation of: children [{captions}] fit a {kind.name} statement"
  | blockInBlock => "Violation of: [s is not a BLOCK statement]"
  | insertPosition => "Violation of: 0 <= pos <= [length of this BLOCK]"
  | removePosition => "Violation of: 0 <= pos < [length of this BLOCK]"
  | notBlock argument => s!"Violation of: [{argument} is a BLOCK statement]"
  | instructionName => "Violation of: inst is a valid IDENTIFIER"
  | programName => "Violation of: n is a valid IDENTIFIER"
  | contextName =>
    "Violation of: [names in c are valid IDENTIFIERs that are not primitive instructions]"
  | contextBody => "Violation of: [bodies in c are all BLOCK statements]"
  | frontKeyword keyword => s!"Violation of: <\"{keyword.text}\"> is proper prefix of tokens"
  | frontIdentifier => "Violation of: identifier string is proper prefix of tokens"
  | childCount demanded found => s!"expected {demanded} children, found {found}"

end RobotLang
