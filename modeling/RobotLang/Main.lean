import RobotLang.CommandLine.Execution

/-!
The command line tool. It reads the file that its arguments name, prints what
`RobotLang.CommandLine.respond` answers, and writes the file that is to be written.
-/

namespace RobotLang.CommandLine

def usage : String :=
  "Usage: bl [-q] [-v] [--no-color] COMMAND\n\n" ++
  "  check FILE [--json]      check that a program parses\n" ++
  "  parse FILE [--json]      print a program in canonical form, or as JSON\n" ++
  "  statement FILE [--json]  the same for bare statements\n" ++
  "  fmt FILE [--write]       print a program in canonical form, or write it to its file\n" ++
  "  hash FILE                print the fingerprint of a program\n" ++
  "  tokens FILE              list the tokens of a file\n" ++
  "  version                  print the version\n" ++
  "  help [COMMAND]           print this text\n"

def failureOf : IO.Error → ReadFailure
  | .noFileOrDirectory .. => .notFound
  | .inappropriateType _ 21 _ => .isFolder
  | .inappropriateType .. => .notFolder
  | e => .other (toString e)

def readSource (file : String) : IO (Except ReadFailure String) := do
  try
    match String.fromUTF8? (← IO.FS.readBinFile file) with
    | some text => return .ok text
    | none => return .error .notText
  catch e => return .error (failureOf e)

def fileOf (arguments : List String) : Option String :=
  match Request.ofArguments arguments with
  | .run invocation => invocation.action.file?
  | _ => none

/-- Answer a command line; the result is the exit code. -/
def runTool (arguments : List String) : IO UInt32 := do
  let source ← match fileOf arguments with
    | some file => readSource file
    | none => pure (.error .notFound)
  match respond (fun _ => source) arguments with
  | .usage code =>
    if code = 0 then IO.print usage else IO.eprint usage
    return code.toUInt32
  | .outcome outcome =>
    if let some (file, text) := outcome.written then IO.FS.writeFile file text
    outcome.log.forM (IO.eprintln ·)
    IO.print outcome.stdout
    IO.eprint outcome.stderr
    return outcome.code.toUInt32

end RobotLang.CommandLine

def main (arguments : List String) : IO UInt32 := RobotLang.CommandLine.runTool arguments
