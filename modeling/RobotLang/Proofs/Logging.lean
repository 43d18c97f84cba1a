import RobotLang.Proofs.Descent

/-!
Procedures with a log. The parsers are the same as without one, but for three places: where an error is
made, and not where it is passed on, where the name at the end of a declaration has been read, and
where a program has been read and is about to be put together. There they write to the log, and what
they have written stays there, however they end.
-/

namespace RobotLang

open RobotLang.Parser

/-- What is written to the log of a parser. -/
inductive Event where
  | fault (e : ParseError)
  | closed (instruction : String)
  | parsed (name : String) (instructions : Nat)
deriving Repr, DecidableEq

/-- A procedure, and what it writes to the log while it works. -/
def Logged (τ α : Type) : Type := Store τ → Outcome τ α × List Event

namespace Logged

variable {σ τ α β : Type}

/-- The events of the second procedure stand behind those of the first. -/
def andThen (first : Logged τ α) (next : α → Logged τ β) : Logged τ β := fun s =>
  match first s with
  | (.value a after, log) => ((next a after).1, log ++ (next a after).2)
  | (.refused e after, log) => (.refused e after, log)
  | (.violated violation, log) => (.violated violation, log)
  | (.noFuel, log) => (.noFuel, log)

instance : Monad (Logged τ) where
  pure a := fun s => (.value a s, [])
  bind := andThen

/-! ## Steps -/

/-- A step that writes nothing. -/
def silent (p : Procedure τ α) : Logged τ α := fun s => (p s, [])

def note (event : Event) : Logged τ Unit := fun s => (.value () s, [event])

def newError (fault : Fault) (span : Option Span) : Logged τ ParseError := do
  note (.fault ⟨fault, span⟩)
  return ⟨fault, span⟩

def fail (error : Logged τ ParseError) : Logged τ α := do
  let e ← error
  silent (Procedure.refuse e)

/-- The error is made only if the condition does not hold. -/
def ensure (holds : Bool) (error : Logged τ ParseError) : Logged τ Unit :=
  if holds then pure () else fail error

def demand (holds : Bool) (violation : Violation) : Logged τ Unit :=
  silent (Procedure.demand holds violation)

def inside (p : Logged σ α) (new : σ) : Logged τ (α × σ) := fun s =>
  (Procedure.inside (fun inner => (p inner).1) new s, (p ⟨s.queue, new⟩).2)

end Logged

namespace Parser.Logging

open Logged
open Procedure (front dequeue atEnd demanded fill outOfFuel)

variable {τ : Type}

/-! ## Words that are due -/

def keyword (place : KeywordPlace) : Logged τ Unit := do
  let t ← silent front
  ensure (t.text == place.keyword.text) (newError (.keywordDue place (found t)) t.span)
  let _ ← silent dequeue
  return ()

def condition (construct : Construct) : Logged τ Condition := do
  let t ← silent front
  ensure (isCondition t.text) (newError (.conditionDue construct (found t)) t.span)
  let word ← silent dequeue
  match Condition.resolve? word with
  | some c => return c
  | none => fail (newError (.notACondition word) none)

def name (named : Named) : Logged τ (String × Option Span) := do
  let t ← silent front
  ensure (isIdentifier t.text) (newError (.nameDue named (found t)) t.span)
  let word ← silent dequeue
  return (word, t.span)

def closingName (named : Named) (word : String) : Logged τ Unit := do
  let t ← silent front
  ensure (t.text == word) (newError (.closingName named word (found t)) t.span)
  let _ ← silent dequeue
  return ()

def opening (construct : Construct) : Logged τ Condition := do
  let t ← silent front
  demand (t.text == construct.keyword.text) (.frontKeyword construct.keyword)
  let _ ← silent dequeue
  let c ← condition construct
  keyword (.afterCondition construct)
  return c

def closing (construct : Construct) : Logged τ Unit := do
  keyword (.afterBlock construct)
  keyword (.afterEnd construct)

/-! ## Statements -/

def elseBlock (block : Logged Statement Unit) : Logged τ (Option Statement) := do
  let t ← silent front
  if t.text = Keyword.else.text then do
    let _ ← silent dequeue
    let no ← inside block .empty
    return some no.2
  else return none

def ifStatement (block : Logged Statement Unit) : Logged Statement Unit := do
  let c ← opening .«if»
  let yes ← inside block .empty
  let t ← silent front
  ensure (t.text == Keyword.else.text || t.text == Keyword.end.text)
    (newError (.branchEndDue (found t)) t.span)
  let no ← elseBlock block
  closing .«if»
  let s ← silent (demanded (match no with
    | some no => Statement.assembleIfElse c yes.2 no
    | none => Statement.assembleIf c yes.2))
  silent (fill s)

def whileStatement (block : Logged Statement Unit) : Logged Statement Unit := do
  let c ← opening .«while»
  let body ← inside block .empty
  closing .«while»
  let s ← silent (demanded (Statement.assembleWhile c body.2))
  silent (fill s)

def statement (block : Logged Statement Unit) : Logged Statement Unit := do
  let t ← silent front
  if t.text = Keyword.if.text then ifStatement block
  else if t.text = Keyword.while.text then whileStatement block
  else if isIdentifier t.text then silent Descent.callStatement
  else fail (newError (.statementDue (found t)) t.span)

def statements (block : Logged Statement Unit) :
    Nat → List Statement → Logged τ (List Statement)
  | 0, _ => silent outOfFuel
  | fuel + 1, done => do
    let t ← silent front
    if Descent.endsBlock t then return done.reverse
    else do
      let s ← inside (statement block) .empty
      statements block fuel (s.2 :: done)

def block : Nat → Nat → Logged Statement Unit
  | 0, _ => silent outOfFuel
  | fuel + 1, depth => do
    let t ← silent front
    ensure (depth ≤ nestingLimit) (newError (.nestedDeeperThan nestingLimit) t.span)
    let body ← statements (block fuel (depth + 1)) (fuel + 1) []
    let s ← silent (demanded (Statement.assemble .block body))
    silent (fill s)

/-! ## Programs -/

def instruction (fuel : Nat) : Logged Statement String := do
  let t ← silent front
  demand (t.text == Keyword.instruction.text) (.frontKeyword .instruction)
  let _ ← silent dequeue
  let named ← name .instruction
  ensure (!isPrimitive named.1) (newError (.primitiveName named.1) named.2)
  keyword (.afterInstructionName named.1)
  block fuel 0
  keyword (.afterInstructionBody named.1)
  closingName .instruction named.1
  note (.closed named.1)
  return named.1

def declarations (fuel : Nat) : Nat → Context → Logged τ Context
  | 0, _ => silent outOfFuel
  | turns + 1, context => do
    let t ← silent front
    if t.text = Keyword.instruction.text then do
      let declared ← inside (instruction fuel) .empty
      ensure (context.get? declared.1).isNone (newError (.duplicateInstruction declared.1) t.span)
      declarations fuel turns (context.insert declared.1 declared.2)
    else return context

/-- What follows the declarations of a program. -/
def mainPart (fuel : Nat) (word : String) (context : Context) : Logged τ Program := do
  keyword .beforeProgramBody
  let body ← inside (block fuel 0) .empty
  keyword .afterProgramBody
  closingName .program word
  let t ← silent front
  let ended ← silent atEnd
  ensure ended (newError (.afterProgram word (found t)) t.span)
  note (.parsed word context.size)
  silent (Descent.assembled word context body.2)

def program (fuel : Nat) : Logged τ Program := do
  keyword .programStart
  let named ← name .program
  keyword (.afterProgramName named.1)
  let context ← declarations fuel fuel .empty
  mainPart fuel named.1 context

/-- A block that takes the whole queue. -/
def wholeBlock (fuel : Nat) : Logged τ Statement := do
  let body ← inside (block fuel 0) .empty
  let t ← silent front
  let ended ← silent atEnd
  ensure ended (newError (.afterStatements (found t)) t.span)
  return body.2

end Parser.Logging

end RobotLang
