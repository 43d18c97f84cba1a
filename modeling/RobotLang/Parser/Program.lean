import RobotLang.Parser.Declaration

/-!
Parsing programs.

    program ::= PROGRAM name IS declaration* BEGIN block END name

Beyond the grammar, instruction names must not repeat, the closing name has to be the one at the
beginning, and nothing may follow. A declaration that repeats a name is refused as a whole, when it has
been taken, at its first keyword.
-/

namespace RobotLang.Parser

/-- What has been read of a program. Declarations are held newest first. -/
inductive ProgramState where
  | start
  /-- The name is due. -/
  | naming
  /-- IS is due. -/
  | named (name : String)
  /-- A declaration is due, or BEGIN. -/
  | declaring (name : String) (declared : List (String × Statement))
  /-- Inside the declaration that begins at a place. -/
  | inDeclaration (name : String) (declared : List (String × Statement)) (place : Option Span)
      (state : DeclarationState)
  | inBody (name : String) (declared : List (String × Statement)) (block : BlockState)
  /-- The name is due again. -/
  | closing (name : String) (declared : List (String × Statement)) (body : Statement)
  /-- Nothing is due. -/
  | complete (name : String) (declared : List (String × Statement)) (body : Statement)

namespace ProgramState

def declared : ProgramState → List (String × Statement)
  | .declaring _ declared => declared
  | .inDeclaration _ declared _ _ => declared
  | .inBody _ declared _ => declared
  | .closing _ declared _ => declared
  | .complete _ declared _ => declared
  | _ => []

def isDeclared (name : String) (declared : List (String × Statement)) : Bool :=
  declared.any (·.1 == name)

def read (limit : Option Nat) (s : ProgramState) (t : Token) : Move ProgramState Program :=
  match s with
  | .start =>
    if t.text = Keyword.program.text then .shift .naming
    else .refuse (.keywordDue .programStart (.word t.text)) t
  | .naming =>
    if isIdentifier t.text then .shift (.named t.text)
    else .refuse (.nameDue .program (.word t.text)) t
  | .named name =>
    if t.text = Keyword.is.text then .shift (.declaring name [])
    else .refuse (.keywordDue (.afterProgramName name) (.word t.text)) t
  | .declaring name declared =>
    if t.text = Keyword.instruction.text then .shift (.inDeclaration name declared t.span .naming)
    else if t.text = Keyword.begin.text then .shift (.inBody name declared .start)
    else .refuse (.keywordDue .beforeProgramBody (.word t.text)) t
  | .inDeclaration name declared place d =>
    match d.read limit t with
    | .shift next => .shift (.inDeclaration name declared place next)
    | .halt taken (.error e) => .halt taken (.error e)
    | .halt taken (.ok (instruction, body)) =>
      if isDeclared instruction declared then
        .halt taken (.error ⟨.duplicateInstruction instruction, place⟩)
      else .shift (.declaring name ((instruction, body) :: declared))
  | .inBody name declared b =>
    match b.step limit t.text with
    | .shift next => .shift (.inBody name declared next)
    | .refuse fault => .refuse fault t
    | .close =>
      if t.text = Keyword.end.text then .shift (.closing name declared b.block)
      else .refuse (.keywordDue .afterProgramBody (.word t.text)) t
  | .closing name declared body =>
    if t.text = name then .shift (.complete name declared body)
    else .refuse (.closingName .program name (.word t.text)) t
  | .complete name _ _ => .refuse (.afterProgram name (.word t.text)) t

/-- End at the end of the input, which only a complete program reaches without a fault. -/
def finish (limit : Option Nat) : ProgramState → Except Fault Program
  | .start => .error (.keywordDue .programStart .endOfInput)
  | .naming => .error (.nameDue .program .endOfInput)
  | .named name => .error (.keywordDue (.afterProgramName name) .endOfInput)
  | .declaring .. => .error (.keywordDue .beforeProgramBody .endOfInput)
  | .inDeclaration _ _ _ d => .error (d.endFault limit)
  | .inBody _ _ b => .error ((b.endFault? limit).getD (.keywordDue .afterProgramBody .endOfInput))
  | .closing name _ _ => .error (.closingName .program name .endOfInput)
  | .complete name declared body => .ok ⟨name, .ofEntries declared, body⟩

end ProgramState

def programMachine (limit : Option Nat) : Machine ProgramState Program where
  onWord s t := s.read limit t
  onEnd s place := (s.finish limit).mapError (⟨·, place⟩)

/-- Parse a program that takes the whole queue. -/
def program (limit : Option Nat) (q : TokenQueue) : Run ProgramState Program :=
  (programMachine limit).run .start q

/-- The names of the declarations that a run has read to their end, in the order of the text. One that
is refused because it repeats a name is among them. -/
def closedDeclarations (run : Run ProgramState Program) : List String :=
  let refused := match run.result with
    | .error ⟨.duplicateInstruction name, _⟩ => [name]
    | _ => []
  run.state.declared.reverse.map (·.1) ++ refused

end RobotLang.Parser

namespace RobotLang

def Program.parse (text : String) : Except ParseError Program :=
  (Parser.program (some Parser.nestingLimit) (tokenize text)).result

def Statement.parse (text : String) : Except ParseError Statement :=
  Parser.statements (some Parser.nestingLimit) text

end RobotLang
