import RobotLang.Parser.Block
import RobotLang.Program

/-!
Parsing instruction declarations.

    declaration ::= INSTRUCTION name IS block END name

The name has to be an identifier that no primitive instruction has, and the closing name has to be the
same. A primitive name is refused when it has been taken; every other token that does not fit is left.
-/

namespace RobotLang.Parser

/-- What has been read of a declaration behind its first keyword. -/
inductive DeclarationState where
  /-- The name is due. -/
  | naming
  /-- IS is due. -/
  | named (name : String)
  | inBody (name : String) (block : BlockState)
  /-- The name is due again. -/
  | closing (name : String) (body : Statement)

namespace DeclarationState

/-- Read one word. The result is the name of the instruction and its body. -/
def read (limit : Option Nat) (s : DeclarationState) (t : Token) :
    Move DeclarationState (String × Statement) :=
  match s with
  | .naming =>
    if isIdentifier t.text then
      if isPrimitive t.text then .halt true (.error ⟨.primitiveName t.text, t.span⟩)
      else .shift (.named t.text)
    else .refuse (.nameDue .instruction (.word t.text)) t
  | .named name =>
    if t.text = Keyword.is.text then .shift (.inBody name .start)
    else .refuse (.keywordDue (.afterInstructionName name) (.word t.text)) t
  | .inBody name b =>
    match b.step limit t.text with
    | .shift next => .shift (.inBody name next)
    | .refuse fault => .refuse fault t
    | .close =>
      if t.text = Keyword.end.text then .shift (.closing name b.block)
      else .refuse (.keywordDue (.afterInstructionBody name) (.word t.text)) t
  | .closing name body =>
    if t.text = name then .halt true (.ok (name, body))
    else .refuse (.closingName .instruction name (.word t.text)) t

def endFault (limit : Option Nat) : DeclarationState → Fault
  | .naming => .nameDue .instruction .endOfInput
  | .named name => .keywordDue (.afterInstructionName name) .endOfInput
  | .inBody name b => (b.endFault? limit).getD (.keywordDue (.afterInstructionBody name) .endOfInput)
  | .closing name _ => .closingName .instruction name .endOfInput

/-- The body, once its block is complete before the token to be read next. -/
def body? (limit : Option Nat) (s : DeclarationState) (next : Token) : Option Statement :=
  match s with
  | .closing _ body => some body
  | .inBody _ b => if b.closesBefore limit next then some b.block else none
  | _ => none

end DeclarationState

def declarationMachine (limit : Option Nat) : Machine DeclarationState (String × Statement) where
  onWord s t := s.read limit t
  onEnd s place := .error ⟨s.endFault limit, place⟩

/-- Parse an instruction declaration; the queue has to begin with one. -/
def declaration (limit : Option Nat) (q : TokenQueue) :
    Except Violation (Run DeclarationState (String × Statement)) :=
  if q.front.text = Keyword.instruction.text then
    .ok ((declarationMachine limit).run .naming q.dequeue.2)
  else .error (.frontKeyword .instruction)

theorem declaration_eq_ok_iff {limit : Option Nat} {q : TokenQueue}
    {run : Run DeclarationState (String × Statement)} :
    declaration limit q = .ok run ↔ q.front.text = Keyword.instruction.text ∧
      (declarationMachine limit).run .naming q.dequeue.2 = run := by
  unfold declaration
  split <;> simp [*]

/-- The body that a run has read, if it came that far. A run that is refused behind its body has
read it all the same. -/
def readBody? (limit : Option Nat) (run : Run DeclarationState (String × Statement)) :
    Option Statement :=
  run.state.body? limit run.rest.front

end RobotLang.Parser
