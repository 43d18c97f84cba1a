/-!
The arguments of the command line tool.

    bl [switches] check FILE [--json] | parse FILE [--json] | statement FILE [--json]
                | fmt FILE [--write] | hash FILE | tokens FILE | version | help [COMMAND]

Switches that hold for the whole tool may stand before the command and behind it, once at either place.
Single letters may be joined. Behind `--` nothing is a switch. Arguments are read from the left, and the
first that is wrong, or asks for help or the version, decides.
-/

namespace RobotLang.CommandLine

/-- An argument without a value. -/
inductive Switch where
  | quiet
  | verbose
  | noColor
  | help
  | version
  | json
  | write
deriving Repr, DecidableEq

namespace Switch

def ofWord? : String → Option Switch
  | "--quiet" => some quiet
  | "--verbose" => some verbose
  | "--no-color" => some noColor
  | "--help" => some help
  | "--version" => some version
  | "--json" => some json
  | "--write" => some write
  | _ => none

def ofLetter? : Char → Option Switch
  | 'q' => some quiet
  | 'v' => some verbose
  | 'h' => some help
  | 'V' => some version
  | _ => none

end Switch

/-- The commands of the tool, help apart. -/
inductive Command where
  | check
  | parse
  | statement
  | format
  | hash
  | tokens
  | version
deriving Repr, DecidableEq

namespace Command

def ofWord? : String → Option Command
  | "check" => some check
  | "parse" => some parse
  | "statement" => some statement
  | "fmt" => some format
  | "hash" => some hash
  | "tokens" => some tokens
  | "version" => some version
  | _ => none

def switches (command : Command) : List Switch :=
  let own := match command with
    | check | parse | statement => [.json]
    | format => [.write]
    | hash | tokens | version => []
  own ++ [.quiet, .verbose, .noColor, .help]

def takesFile : Command → Bool
  | version => false
  | _ => true

end Command

def leadingSwitches : List Switch := [.quiet, .verbose, .noColor, .help, .version]

inductive Action where
  | check (file : String) (json : Bool)
  | parse (file : String) (json : Bool)
  | statement (file : String) (json : Bool)
  | format (file : String) (write : Bool)
  | hash (file : String)
  | tokens (file : String)
  | version
deriving Repr, DecidableEq

structure Invocation where
  action : Action
  quiet : Bool
  verbose : Bool
deriving Repr, DecidableEq

inductive Request where
  | run (invocation : Invocation)
  | help
  | refused
deriving Repr, DecidableEq

/-- Why reading stops before the last argument. -/
inductive Stop where
  | help
  | version
  | refused
deriving Repr, DecidableEq

/-- What an argument looks like where switches are read. -/
inductive Form where
  /-- The end of the switches. -/
  | escape
  | switches (letters : List (Option Switch))
  | value

/-- The form of an argument. A lone hyphen is a value. -/
def formOf (argument : String) : Form :=
  if argument = "--" then .escape
  else match argument.toList with
    | '-' :: '-' :: _ => .switches [Switch.ofWord? argument]
    | '-' :: c :: cs => .switches ((c :: cs).map Switch.ofLetter?)
    | _ => .value

/-- Read a switch where some are allowed and some have been given. -/
def readSwitch (allowed given : List Switch) : Option Switch → Except Stop (List Switch)
  | none => .error .refused
  | some switch =>
    if !allowed.contains switch then .error .refused
    else match switch with
      | .help => .error .help
      | .version => .error .version
      | switch => if given.contains switch then .error .refused else .ok (switch :: given)

structure Tail where
  given : List Switch
  file : Option String
  escaped : Bool

/-- Read an argument that is no switch: the file, if there is to be one and none yet. -/
def Tail.readValue (command : Command) (t : Tail) (argument : String) : Except Stop Tail :=
  if command.takesFile && t.file.isNone && argument ≠ "" then .ok { t with file := some argument }
  else .error .refused

def Tail.read (command : Command) (t : Tail) (argument : String) : Except Stop Tail :=
  if t.escaped then t.readValue command argument
  else match formOf argument with
    | .escape => .ok { t with escaped := true }
    | .switches letters => do
      return { t with given := ← letters.foldlM (readSwitch command.switches) t.given }
    | .value => t.readValue command argument

/-- What a command is to do, once all arguments have been read. -/
def Tail.action (command : Command) (t : Tail) : Except Stop Action :=
  match command, t.file with
  | .version, _ => .ok .version
  | .check, some file => .ok (.check file (t.given.contains .json))
  | .parse, some file => .ok (.parse file (t.given.contains .json))
  | .statement, some file => .ok (.statement file (t.given.contains .json))
  | .format, some file => .ok (.format file (t.given.contains .write))
  | .hash, some file => .ok (.hash file)
  | .tokens, some file => .ok (.tokens file)
  | _, none => .error .refused

/-- Read the arguments of a command behind the switches that stand before it. -/
def readTail (command : Command) (leading : List Switch) (arguments : List String) :
    Except Stop Invocation := do
  let tail ← arguments.foldlM (Tail.read command) ⟨[], none, false⟩
  let action ← tail.action command
  let given := leading ++ tail.given
  return ⟨action, given.contains .quiet, given.contains .verbose⟩

/-- The help command stands alone or before the name of one command. -/
def readHelp : List String → Stop
  | [] => .help
  | [word] => if word = "help" || (Command.ofWord? word).isSome then .help else .refused
  | _ => .refused

/-- Read all arguments, with the switches that have been given so far. -/
def readAll (given : List Switch) : List String → Except Stop Invocation
  | [] => .error .refused
  | argument :: rest =>
    match formOf argument with
    | .escape => .error .refused
    | .switches letters => do readAll (← letters.foldlM (readSwitch leadingSwitches) given) rest
    | .value =>
      if argument = "help" then .error (readHelp rest)
      else match Command.ofWord? argument with
        | some command => readTail command given rest
        | none => .error .refused

def Request.ofArguments (arguments : List String) : Request :=
  match readAll [] arguments with
  | .ok invocation => .run invocation
  | .error .help => .help
  | .error .version => .run ⟨.version, false, false⟩
  | .error .refused => .refused

end RobotLang.CommandLine
