import RobotLang.CommandLine.Arguments
import RobotLang.CommandLine.Directory
import RobotLang.Fingerprint
import RobotLang.Interchange.Tree
import RobotLang.Json.Writer
import RobotLang.Text.Control

/-!
What the command line tool does: what it prints, what it logs, which file it writes, and its exit code.
The code is 0 when the text is accepted, 1 when it is not, and 2 when it cannot be read. A file is
written only when its text is accepted.
-/

namespace RobotLang.CommandLine

structure Outcome where
  code : Nat
  stdout : String := ""
  stderr : String := ""
  log : List String := []
  written : Option (String × String) := none
deriving Repr, DecidableEq

/-! ## Log lines

A log is for a terminal, and the message of a fault may quote any character of a program.
-/

def readingLine (file : String) : String := s!"DEBUG reading source file={file}"

def formattedLine (file : String) : String := s!"INFO formatted in place file={file}"

def declarationLine (name : String) : String := s!"DEBUG parsed instruction instruction={name}"

def programLine (p : Program) : String :=
  s!"DEBUG parsed program program={p.name} instructions={p.context.size}"

def faultLine (e : ParseError) : String :=
  s!"DEBUG fatal parse error: {Text.spellOut e.fault.message} kind={e.fault.kind.display}"

/-- The log of parsing a program: the declarations that were read to their end, and how it ended. -/
def programLog (run : Parser.Run Parser.ProgramState Program) : List String :=
  let last := match run.result with
    | .ok p => programLine p
    | .error e => faultLine e
  (Parser.closedDeclarations run).map declarationLine ++ [last]

/-! ## Answers -/

/-- The line that says why a text is not accepted. -/
def reject (file : String) (e : ParseError) : Outcome :=
  { code := 1, stderr := s!"error: {file}: {e.diagnostic.display}\n" }

def printJson (value : Json) : String := value.spread ++ "\n"

def programReport (p : Program) : Json :=
  .object [("valid", .bool true), ("program", .string p.name),
    ("instructions", .array (p.context.names.map .string))]

/-- What a check says of a text that is none. -/
def faultReport (e : ParseError) : Json :=
  .object [("valid", .bool false), ("error", e.diagnostic.summary)]

/-- Answer for a text that has to be a program, and log how it was parsed. -/
def onProgram (source : String) (accept : Program → Outcome) (refuse : ParseError → Outcome) :
    Outcome :=
  let run := Parser.program (some Parser.nestingLimit) (tokenize source)
  let outcome := match run.result with
    | .ok p => accept p
    | .error e => refuse e
  { outcome with log := programLog run ++ outcome.log }

/-- Answer for a text that has to be a block of statements. -/
def onStatements (source : String) (accept : Statement → Outcome) (refuse : ParseError → Outcome) :
    Outcome :=
  match Statement.parse source with
  | .ok block => accept block
  | .error e => { refuse e with log := [faultLine e] }

def tokenLine (t : Token) : String :=
  let place := (t.span.map Span.display).getD "-"
  s!"{place}\t{(classify t.text).display}\t{t.text}\n"

def Action.execute (quiet : Bool) (source : String) : Action → Outcome
  | .check file json =>
    onProgram source
      (fun p =>
        let line := s!"✓ {file} is valid (program {p.name}, {p.context.size} instructions)\n"
        let stdout := if json then printJson (programReport p).sorted else if quiet then "" else line
        { code := 0, stdout })
      (fun e =>
        let stdout := if json then printJson (faultReport e).sorted else ""
        { reject file e with stdout })
  | .parse file json =>
    onProgram source
      (fun p => { code := 0, stdout := if json then printJson p.toJson else p.text })
      (reject file)
  | .statement file json =>
    onStatements source
      (fun block => { code := 0, stdout := if json then printJson block.toJson else block.text 0 })
      (reject file)
  | .format file write =>
    onProgram source
      (fun p =>
        if write then
          let stdout := if quiet then "" else s!"✓ formatted {file}\n"
          { code := 0, stdout, log := [formattedLine file], written := some (file, p.text) }
        else { code := 0, stdout := p.text })
      (reject file)
  | .hash file =>
    onProgram source (fun p => { code := 0, stdout := p.fingerprint ++ "\n" }) (reject file)
  | .tokens _ => { code := 0, stdout := String.join ((tokenize source).toList.map tokenLine) }
  | .version => { code := 0 }

def Action.file? : Action → Option String
  | .check file _ => some file
  | .parse file _ => some file
  | .statement file _ => some file
  | .format file _ => some file
  | .hash file => some file
  | .tokens file => some file
  | .version => none

def versionLine : String := "bl 0.1.0\n"

/-- Carry out a command line, given how to read files. -/
def Invocation.execute (read : String → Except ReadFailure String) (i : Invocation) : Outcome :=
  match i.action.file? with
  | none => { code := 0, stdout := versionLine }
  | some file =>
    let outcome := match read file with
      | .ok source => i.action.execute i.quiet source
      | .error failure => { code := 2, stderr := s!"error: cannot read {file}: {failure.message}\n" }
    { outcome with log := if i.verbose then readingLine file :: outcome.log else [] }

inductive Response where
  /-- The text that explains its use, with an exit code. -/
  | usage (code : Nat)
  | outcome (outcome : Outcome)
deriving Repr, DecidableEq

/-- What the tool answers to its arguments, given how to read files. -/
def respond (read : String → Except ReadFailure String) (arguments : List String) : Response :=
  match Request.ofArguments arguments with
  | .help => .usage 0
  | .refused => .usage 2
  | .run invocation => .outcome (invocation.execute read)

def Outcome.apply (outcome : Outcome) (d : Directory) : Directory :=
  match outcome.written with
  | some (path, text) => d.write path text
  | none => d

end RobotLang.CommandLine
