import RobotLang.Parser.Program
import RobotLang.Proofs.Procedure

/-!
The parsers as procedures, one for each rule of the grammar, that call each other and fill in their
targets in place. Every demand is checked where it is made: by a procedure that its queue begins as
it has to, and by each operation that puts a statement or program together that it is given what
fits.

A block is read with fuel for the blocks inside it and for the turns of its loop.
-/

namespace RobotLang.Parser.Descent

open Procedure

variable {τ : Type}

/-- What ends a block, and is left to whoever reads on. -/
def endsBlock (t : Token) : Bool :=
  t.text == Keyword.end.text || t.text == Keyword.else.text || t.isEnd

/-! ## Words that are due -/

def keyword (place : KeywordPlace) : Procedure τ Unit := do
  let t ← front
  ensure (t.text == place.keyword.text) ⟨.keywordDue place (found t), t.span⟩
  let _ ← dequeue
  return ()

def condition (construct : Construct) : Procedure τ Condition := do
  let t ← front
  ensure (isCondition t.text) ⟨.conditionDue construct (found t), t.span⟩
  let word ← dequeue
  result (Condition.parse word)

/-- A name, and where it stands. -/
def name (named : Named) : Procedure τ (String × Option Span) := do
  let t ← front
  ensure (isIdentifier t.text) ⟨.nameDue named (found t), t.span⟩
  let word ← dequeue
  return (word, t.span)

def closingName (named : Named) (word : String) : Procedure τ Unit := do
  let t ← front
  ensure (t.text == word) ⟨.closingName named word (found t), t.span⟩
  let _ ← dequeue
  return ()

/-- The words of a statement up to its block. -/
def opening (construct : Construct) : Procedure τ Condition := do
  let t ← front
  demand (t.text == construct.keyword.text) (.frontKeyword construct.keyword)
  let _ ← dequeue
  let c ← condition construct
  keyword (.afterCondition construct)
  return c

/-- The words of a statement behind its last block. -/
def closing (construct : Construct) : Procedure τ Unit := do
  keyword (.afterBlock construct)
  keyword (.afterEnd construct)

/-! ## Statements -/

def callStatement : Procedure Statement Unit := do
  let t ← front
  demand (isIdentifier t.text) .frontIdentifier
  let instruction ← dequeue
  let s ← demanded (Statement.assembleCall instruction)
  fill s

/-- The second block of an IF, if there is one; `block` reads a block inside the statement. -/
def elseBlock (block : Procedure Statement Unit) : Procedure τ (Option Statement) := do
  let t ← front
  if t.text = Keyword.else.text then do
    let _ ← dequeue
    let no ← inside block .empty
    return some no.2
  else return none

def ifStatement (block : Procedure Statement Unit) : Procedure Statement Unit := do
  let c ← opening .«if»
  let yes ← inside block .empty
  let t ← front
  ensure (t.text == Keyword.else.text || t.text == Keyword.end.text)
    ⟨.branchEndDue (found t), t.span⟩
  let no ← elseBlock block
  closing .«if»
  let s ← demanded (match no with
    | some no => Statement.assembleIfElse c yes.2 no
    | none => Statement.assembleIf c yes.2)
  fill s

def whileStatement (block : Procedure Statement Unit) : Procedure Statement Unit := do
  let c ← opening .«while»
  let body ← inside block .empty
  closing .«while»
  let s ← demanded (Statement.assembleWhile c body.2)
  fill s

def statement (block : Procedure Statement Unit) : Procedure Statement Unit := do
  let t ← front
  if t.text = Keyword.if.text then ifStatement block
  else if t.text = Keyword.while.text then whileStatement block
  else if isIdentifier t.text then callStatement
  else refuse ⟨.statementDue (found t), t.span⟩

/-- The statements up to the end of a block, behind those that are done, newest first. -/
def statements (block : Procedure Statement Unit) :
    Nat → List Statement → Procedure τ (List Statement)
  | 0, _ => outOfFuel
  | fuel + 1, done => do
    let t ← front
    if endsBlock t then return done.reverse
    else do
      let s ← inside (statement block) .empty
      statements block fuel (s.2 :: done)

/-- A block inside so many IF and WHILE statements. -/
def block : Nat → Nat → Procedure Statement Unit
  | 0, _ => outOfFuel
  | fuel + 1, depth => do
    let t ← front
    ensure (depth ≤ nestingLimit) ⟨.nestedDeeperThan nestingLimit, t.span⟩
    let body ← statements (block fuel (depth + 1)) (fuel + 1) []
    let s ← demanded (Statement.assemble .block body)
    fill s

/-! ## Programs -/

/-- The target is the body, and is filled in as soon as that has been read. -/
def instruction (fuel : Nat) : Procedure Statement String := do
  let t ← front
  demand (t.text == Keyword.instruction.text) (.frontKeyword .instruction)
  let _ ← dequeue
  let named ← name .instruction
  ensure (!isPrimitive named.1) ⟨.primitiveName named.1, named.2⟩
  keyword (.afterInstructionName named.1)
  block fuel 0
  keyword (.afterInstructionBody named.1)
  closingName .instruction named.1
  return named.1

/-- The declarations of a program, added to a context one after the other. -/
def declarations (fuel : Nat) : Nat → Context → Procedure τ Context
  | 0, _ => outOfFuel
  | turns + 1, context => do
    let t ← front
    if t.text = Keyword.instruction.text then do
      let declared ← inside (instruction fuel) .empty
      ensure (context.get? declared.1).isNone ⟨.duplicateInstruction declared.1, t.span⟩
      declarations fuel turns (context.insert declared.1 declared.2)
    else return context

/-- A new program, put together from what has been read. -/
def assembled (word : String) (context : Context) (body : Statement) : Procedure τ Program := do
  let p ← demanded (Program.unnamed.setName word)
  let p ← demanded (p.replaceContext context)
  let p ← demanded (p.2.replaceBody body)
  return p.2

def program (fuel : Nat) : Procedure τ Program := do
  keyword .programStart
  let named ← name .program
  keyword (.afterProgramName named.1)
  let context ← declarations fuel fuel .empty
  keyword .beforeProgramBody
  let body ← inside (block fuel 0) .empty
  keyword .afterProgramBody
  closingName .program named.1
  let t ← front
  let ended ← atEnd
  ensure ended ⟨.afterProgram named.1 (found t), t.span⟩
  assembled named.1 context body.2

/-- Replace a program by the one that is read. -/
def programInto (fuel : Nat) : Procedure Program Unit := do
  let p ← program fuel
  fill p

/-- A block that takes the whole queue. -/
def wholeBlock (fuel : Nat) : Procedure τ Statement := do
  let body ← inside (block fuel 0) .empty
  let t ← front
  let ended ← atEnd
  ensure ended ⟨.afterStatements (found t), t.span⟩
  return body.2

end RobotLang.Parser.Descent
