import RobotLang.Proofs.Flags
import RobotLang.Proofs.LogLines
import RobotLang.Proofs.ReportedErrors

/-!
The log of the tool. For a command that reads a program it has a line that the file is read, then one
for each declaration that was closed, then one for the program or for the error, and then one if the
file has been formatted. Errors are written nowhere but where they are made, and writing changes
nothing that a parser comes to. Main statement: `log_exact`.
-/

namespace RobotLang

open RobotLang.Parser

variable {text : String}

/-! ## What parsers write -/

/-- With a log the procedures end as they do without one. They write the error that they come back with
and no other one, and what else they write is told by what they have read. -/
structure Reported (fuel : Nat) : Prop where
  block : ∀ depth, Logged.Quiet (Logging.block fuel depth) (Descent.block fuel depth)
  statement : Logged.Quiet (Logging.statement (Logging.block fuel 1))
    (Descent.statement (Descent.block fuel 1))
  ifStatement : Logged.Quiet (Logging.ifStatement (Logging.block fuel 1))
    (Descent.ifStatement (Descent.block fuel 1))
  whileStatement : Logged.Quiet (Logging.whileStatement (Logging.block fuel 1))
    (Descent.whileStatement (Descent.block fuel 1))
  wholeBlock : Logged.Quiet (Logging.wholeBlock fuel : Logged Unit Statement)
    (Descent.wholeBlock fuel)
  instruction : Logged.Reports (fun name => [.closed name]) (Logging.instruction fuel)
    (Descent.instruction fuel)
  program : ∀ q : TokenQueue, q.tokens.length < fuel →
    Logging.program fuel ⟨q, ()⟩ =
      (Descent.program fuel ⟨q, ()⟩, (Parser.program (some nestingLimit) q).events)

theorem reported (fuel : Nat) : Reported fuel where
  block := quiet_block fuel
  statement := quiet_statement (quiet_block fuel 1)
  ifStatement := quiet_ifStatement (quiet_block fuel 1)
  whileStatement := quiet_whileStatement (quiet_block fuel 1)
  wholeBlock := quiet_wholeBlock fuel
  instruction := reports_instruction fuel
  program q short := by rw [program_logged short, program_eq_run short, Run.logged]

/-- The names are those of the declarations that the text begins with behind the head of a program, up
to the first one that repeats a name: of all such lists they are the longest. -/
structure ClosedNames (text : String) (names : List String) : Prop where
  longest : ∀ name declarations, Closes (some nestingLimit) (tokenize text) name declarations →
    declarations.map (·.1) <+: names
  read : names ≠ [] → ∃ name declarations,
    Closes (some nestingLimit) (tokenize text) name declarations ∧ declarations.map (·.1) = names

theorem closedNames (text : String) :
    ClosedNames text (closedDeclarations (program (some nestingLimit) (tokenize text))) :=
  ⟨(closedDeclarations_exact _ _).1, (closedDeclarations_exact _ _).2⟩

namespace CommandLine

variable {arguments : List String} {i : Invocation} {action : Action} {path : String} {o : Outcome}
  {p : Program} {e : ParseError} {quiet : Bool} {d : Directory} {start first : String}

/-! ## Lines -/

/-- The line for an event. -/
def line : Event → String
  | .fault e => faultLine e
  | .closed name => declarationLine name
  | .parsed name instructions =>
    s!"DEBUG parsed program program={name} instructions={instructions}"

/-- The log of parsing a text holds the lines for what the parser writes. -/
theorem programLog_eq (run : Run ProgramState Program) :
    programLog run = run.events.map line := by
  rw [programLog, Run.events, List.map_append, List.map_map]
  cases run.result <;> rfl

def begins (start line : String) : Bool := start.toList.isPrefixOf line.toList

theorem begins_append (long : start.toList.length ≤ first.toList.length) (rest : String) :
    begins start (first ++ rest) = begins start first := by
  rw [Bool.eq_iff_iff, begins, begins, List.isPrefixOf_iff_prefix, List.isPrefixOf_iff_prefix,
    String.toList_append]
  exact ⟨fun h => List.prefix_of_prefix_length_le h (List.prefix_append ..) long,
    fun h => h.trans (List.prefix_append ..)⟩

def faultHead : String := "DEBUG fatal parse error: "

def programHead : String := "DEBUG parsed program "

theorem programLine_eq (p : Program) :
    programLine p = "DEBUG parsed program program=" ++
      (p.name ++ (" instructions=" ++ toString p.context.size)) := by
  rw [← String.append_assoc, ← String.append_assoc]
  rfl

/-- Whether the line is about an error, and whether it is about a program. -/
structure Apart (line : String) (fault program : Bool) : Prop where
  fault : begins faultHead line = fault
  program : begins programHead line = program

theorem apart_append (long : faultHead.toList.length ≤ first.toList.length) (rest : String) :
    Apart (first ++ rest) (begins faultHead first) (begins programHead first) :=
  ⟨begins_append long rest, begins_append (Nat.le_trans (by decide) long) rest⟩

theorem apart_readingLine (file : String) : Apart (readingLine file) false false :=
  apart_append (by decide) file

theorem apart_formattedLine (file : String) : Apart (formattedLine file) false false :=
  apart_append (by decide) file

theorem apart_declarationLine (name : String) : Apart (declarationLine name) false false :=
  apart_append (by decide) name

theorem apart_programLine (p : Program) : Apart (programLine p) false true := by
  rw [programLine_eq]
  exact apart_append (by decide) _

theorem apart_faultLine (e : ParseError) : Apart (faultLine e) true false := by
  rw [faultLine_eq]
  exact apart_append (by decide) _

/-! ## Answers -/

def formattedLines (action : Action) (path : String) (o : Outcome) : List String :=
  if action = .format path true ∧ o.code = 0 then [formattedLine path] else []

/-- What the log of a command that reads a program consists of. -/
def logLines (action : Action) (path : String) (names : List String) (last : String) (o : Outcome) :
    List String :=
  readingLine path :: (names.map declarationLine ++ last :: formattedLines action path o)

/-- Only the line that tells how a program was parsed can be about an error or a program. -/
theorem filter_logLines {head : String} (reading : ∀ file, begins head (readingLine file) = false)
    (declaration : ∀ name, begins head (declarationLine name) = false)
    (formatted : ∀ file, begins head (formattedLine file) = false) (names : List String)
    (last : String) :
    (logLines action path names last o).filter (begins head) = [last].filter (begins head) := by
  have declarations : (names.map declarationLine).filter (begins head) = [] := by
    rw [List.filter_eq_nil_iff]
    intro line mem
    obtain ⟨name, -, rfl⟩ := List.mem_map.mp mem
    simp [declaration name]
  have formattedLines : (formattedLines action path o).filter (begins head) = [] := by
    rw [CommandLine.formattedLines]
    split
    · simp [formatted]
    · rfl
  rw [logLines, List.filter_cons, reading, if_neg Bool.false_ne_true, List.filter_append,
    declarations, List.nil_append, List.filter_cons, formattedLines, List.filter_cons, List.filter_nil]

theorem faultLines_logLines (names : List String) (last : String) :
    (logLines action path names last o).filter (begins faultHead) =
      [last].filter (begins faultHead) :=
  filter_logLines (fun file => (apart_readingLine file).fault)
    (fun name => (apart_declarationLine name).fault) (fun file => (apart_formattedLine file).fault)
    names last

theorem programLines_logLines (names : List String) (last : String) :
    (logLines action path names last o).filter (begins programHead) =
      [last].filter (begins programHead) :=
  filter_logLines (fun file => (apart_readingLine file).program)
    (fun name => (apart_declarationLine name).program)
    (fun file => (apart_formattedLine file).program) names last

/-- The line that tells what a text was parsed to. -/
def lastLine : Except ParseError Program → String
  | .ok p => programLine p
  | .error e => faultLine e

theorem programLog_tokenize (text : String) :
    programLog (program (some nestingLimit) (tokenize text)) =
      (closedDeclarations (program (some nestingLimit) (tokenize text))).map declarationLine ++
        [lastLine (Program.parse text)] := by
  rw [programLog, Program.parse]
  cases (program (some nestingLimit) (tokenize text)).result <;> rfl

theorem action_log (takes : action.TakesProgram) (file : action.file? = some path) :
    (action.execute quiet text).log = programLog (program (some nestingLimit) (tokenize text)) ++
      formattedLines action path (action.execute quiet text) := by
  cases parsed : Program.parse text with
  | ok p =>
    cases action with
    | check | parse | hash =>
      simp only [Action.execute]
      rw [onProgram_of_ok parsed]
      simp [formattedLines]
    | format file write =>
      cases file
      simp only [Action.execute]
      rw [onProgram_of_ok parsed]
      cases write <;> simp [formattedLines]
    | statement | tokens | version => exact takes.elim
  | error e =>
    cases action with
    | check | parse | hash | format =>
      simp only [Action.execute]
      rw [onProgram_of_error parsed]
      simp [reject, formattedLines]
    | statement | tokens | version => exact takes.elim

/-- How a text was parsed, by the exit code, and the one line that tells it. -/
inductive Ending (text path : String) (o : Outcome) : String → Prop
  | accepted {p : Program} (parsed : Program.parse text = .ok p) (code : o.code = 0)
      (once : o.log.filter (begins programHead) = [programLine p])
      (faultless : o.log.filter (begins faultHead) = []) : Ending text path o (programLine p)
  | refused {e : ParseError} (failed : Program.parse text = .error e) (code : o.code = 1)
      (reported : o.stderr = s!"error: {path}: {e.diagnostic.display}\n")
      (once : o.log.filter (begins faultHead) = [faultLine e])
      (unparsed : o.log.filter (begins programHead) = []) : Ending text path o (faultLine e)

/-- The log of a command that reads a program, and what stands in it. -/
structure LoggedAs (action : Action) (path text : String) (names : List String) (last : String)
    (o : Outcome) : Prop where
  lines : o.log = logLines action path names last o
  closed : ClosedNames text names
  ending : Ending text path o last

section

variable (takes : i.action.TakesProgram) (verbose : i.verbose = true)
  (file : i.action.file? = some path) (there : d.read path = .ok text)

include file there

theorem execute_log : (i.execute d.read).log =
    if i.verbose then readingLine path :: (i.action.execute i.quiet text).log else [] := by
  simp only [Invocation.execute, file, there]

include takes verbose

theorem execute_logLines : (i.execute d.read).log =
    logLines i.action path (closedDeclarations (program (some nestingLimit) (tokenize text)))
      (lastLine (Program.parse text)) (i.execute d.read) := by
  have code : (i.execute d.read).code = (i.action.execute i.quiet text).code :=
    (congrArg Outcome.code (invocation_readable file there) :)
  rw [execute_log file there, if_pos verbose, action_log takes file, programLog_tokenize, logLines,
    formattedLines, formattedLines, code, List.append_assoc]
  rfl

theorem execute_ending :
    Ending text path (i.execute d.read) (lastLine (Program.parse text)) := by
  have lines := execute_logLines takes verbose file there
  have same := invocation_readable file there
  cases parsed : Program.parse text with
  | ok p =>
    rw [parsed] at lines
    have accepts : Accepts i.action path text (i.action.execute i.quiet text).unlogged :=
      execute_program takes file parsed
    refine .accepted parsed ((congrArg Outcome.code same).trans accepts.code) ?_ ?_
    · rw [lines, programLines_logLines]
      simp [lastLine, (apart_programLine p).program]
    · rw [lines, faultLines_logLines]
      simp [lastLine, (apart_programLine p).fault]
  | error e =>
    rw [parsed] at lines
    have refuses : i.action.Refuses text e := by
      cases action : i.action <;> first | exact parsed | exact (action ▸ takes).elim
    have same := same.trans (execute_refused file refuses)
    refine .refused parsed (congrArg Outcome.code same) (congrArg Outcome.stderr same) ?_ ?_
    · rw [lines, faultLines_logLines]
      simp [lastLine, (apart_faultLine e).fault]
    · rw [lines, programLines_logLines]
      simp [lastLine, (apart_faultLine e).program]

theorem exists_loggedAs :
    ∃ names last, LoggedAs i.action path text names last (i.execute d.read) :=
  ⟨_, _, execute_logLines takes verbose file there, closedNames text,
    execute_ending takes verbose file there⟩

end

theorem log_of_not_verbose (silent : i.verbose = false) : (i.execute d.read).log = [] := by
  rw [Invocation.execute]
  split
  · rfl
  · simp [silent]

/-- An error is written once, where it is made, and a parser that is not refused writes none; writing
changes nothing that a parser comes to. With `-v`, the log of a command that reads a program tells that
the file is read, then each declaration that was closed, then the program or the error and never both,
and then that the file was formatted, if it was. The line about an error tells its kind and its
message. Of the switches for the whole tool, `-v` changes nothing but the log, `--no-color` nothing at
all, and `-q` takes away the line that tells of a success. -/
theorem log_exact (accepted : Request.ofArguments arguments = .run i) (d : Directory) :
    (∀ fuel, Reported fuel) ∧
    (∀ (fuel : Nat) (q : TokenQueue) (entry : Parser.Entry), q.tokens.length < fuel →
      faults (entry.log fuel q) = (entry.error? q).toList) ∧
    (∀ (fuel : Nat) (text : String), text.length < fuel →
      faults (Logging.wholeBlock fuel ⟨tokenize text, ()⟩).2 = errorOf (Statement.parse text)) ∧
    (∀ run : Run ProgramState Program, programLog run = run.events.map line) ∧
    (∀ text text' e e', Program.parse text = .error e → Program.parse text' = .error e' →
      (faultLine e = faultLine e' ↔
        e.diagnostic.kind = e'.diagnostic.kind ∧ e.diagnostic.message = e'.diagnostic.message)) ∧
    (i.verbose = true → i.action.TakesProgram →
      ∀ path text, i.action.file? = some path → d.read path = .ok text →
        ∃ o names last, respond d.read arguments = .outcome o ∧
          LoggedAs i.action path text names last o) ∧
    (i.verbose = false → ∃ o, respond d.read arguments = .outcome o ∧ o.log = []) ∧
    FlagsFirst d.read arguments := by
  refine ⟨reported, fun fuel q entry short => faults_log short entry,
    fun fuel text => faults_wholeBlock, programLog_eq, fun _ _ _ _ => faultLine_eq_iff,
    fun verbose takes path text file there => ?_, fun silent => ?_, flags_exact d.read arguments⟩
  · obtain ⟨names, last, logged⟩ := exists_loggedAs takes verbose file there
    exact ⟨_, names, last, respond_run accepted _, logged⟩
  · exact ⟨_, respond_run accepted _, log_of_not_verbose silent⟩

/-- A file that declares a name twice is checked, and one that declares it once is formatted. -/
theorem log_exact_repeated_name :
    ∃ (d : Directory) (once twice : String),
      d.read "once.bl" = .ok once ∧ d.read "twice.bl" = .ok twice ∧
      (∃ o names last, respond d.read ["check", "-v", "twice.bl"] = .outcome o ∧
        LoggedAs (.check "twice.bl" false) "twice.bl" twice names last o ∧
        o.log = ["DEBUG reading source file=twice.bl",
          "DEBUG parsed instruction instruction=a", "DEBUG parsed instruction instruction=a",
          "DEBUG fatal parse error: duplicate instruction name \"a\"; each user-defined " ++
            "instruction must be unique kind=duplicate instruction"]) ∧
      (∃ o names last, respond d.read ["-v", "fmt", "--write", "once.bl"] = .outcome o ∧
        LoggedAs (.format "once.bl" true) "once.bl" once names last o ∧
        o.log = ["DEBUG reading source file=once.bl", "DEBUG parsed instruction instruction=a",
          "DEBUG parsed program program=p instructions=1",
          "INFO formatted in place file=once.bl"] ∧
        ∃ o', respond d.read ["-q", "-v", "fmt", "--write", "once.bl"] = .outcome o' ∧
          o.stdout = "✓ formatted once.bl\n" ∧ o' = { o with stdout := "" }) := by
  let once := "PROGRAM p IS INSTRUCTION a IS END a BEGIN a END p"
  let twice := "PROGRAM p IS INSTRUCTION a IS END a INSTRUCTION a IS END a BEGIN END p"
  let d : Directory :=
    ⟨[("once.bl", .file (Text.encode once)), ("twice.bl", .file (Text.encode twice))]⟩
  have readOnce : d.read "once.bl" = .ok once := Directory.read_of_isName (by decide +kernel) rfl
  have readTwice : d.read "twice.bl" = .ok twice := Directory.read_of_isName (by decide +kernel) rfl
  have checks : Request.ofArguments ["check", "-v", "twice.bl"] =
      .run ⟨.check "twice.bl" false, false, true⟩ := by decide +kernel
  have formats : Request.ofArguments ["-v", "fmt", "--write", "once.bl"] =
      .run ⟨.format "once.bl" true, false, true⟩ := by decide +kernel
  obtain ⟨-, -, -, -, -, checked, -, -⟩ := log_exact checks d
  obtain ⟨-, -, -, -, -, formatted, -, flags⟩ := log_exact formats d
  obtain ⟨o, names, last, answered, logged⟩ := checked rfl trivial "twice.bl" twice rfl readTwice
  obtain ⟨w, names', last', answered', logged'⟩ :=
    formatted rfl trivial "once.bl" once rfl readOnce
  obtain ⟨w', quiet, quieted⟩ := flags.quiet (by decide +kernel) _ w formats answered'
  refine ⟨d, once, twice, readOnce, readTwice, ⟨o, names, last, answered, logged, ?_⟩, w, names',
    last', answered', logged', ?_, w', quiet, ?_⟩
  · obtain rfl := Response.outcome.inj ((respond_run checks _).symm.trans answered)
    rw [execute_log rfl readTwice]
    decide +kernel
  · obtain rfl := Response.outcome.inj ((respond_run formats _).symm.trans answered')
    rw [execute_log rfl readOnce]
    decide +kernel
  · obtain rfl := Response.outcome.inj ((respond_run formats _).symm.trans answered')
    cases quieted with
    | dropped _ _ _ line => exact ⟨(Option.some.inj line).symm, rfl⟩
    | same silent =>
      have parses : (Program.parse once).toOption.isSome = true := by decide +kernel
      cases parsed : Program.parse once with
      | ok p => exact absurd (silent _ _ p rfl readOnce parsed) nofun
      | error e =>
        rw [parsed] at parses
        cases parses

end CommandLine

end RobotLang
