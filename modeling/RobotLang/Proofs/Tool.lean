import RobotLang.CommandLine.Execution
import RobotLang.Proofs.Files
import RobotLang.Proofs.RoundTrip

/-!
The command line tool and the files it is run on. Its exit code tells whether there was a text and
whether that was accepted, and a file is written only where its text has been accepted: then it holds
the canonical text, and commands that read programs answer as they did before. Up to its log, what a
command comes to depends on what the parser makes of the text, so the texts of a file before and after
it has been written are treated alike.

Main statement: `tool_keeps_files`.
-/

namespace RobotLang.CommandLine

variable {d after : Directory} {path source s t : String} {old : List UInt8}
  {arguments : List String} {action : Action} {i : Invocation} {o : Outcome} {p : Program}
  {e : ParseError} {quiet : Bool}

/-! ## What a command demands of its text -/

/-- The command parses its text as a program. -/
def Action.TakesProgram : Action → Prop
  | .check .. | .parse .. | .format .. | .hash _ => True
  | _ => False

/-- The parser that the command calls on refuses the text. -/
def Action.Refuses (action : Action) (text : String) (e : ParseError) : Prop :=
  match action with
  | .statement .. => Statement.parse text = .error e
  | .check .. | .parse .. | .format .. | .hash _ => Program.parse text = .error e
  | .tokens _ | .version => False

/-- What the command prints, beside the message, when the text is refused. -/
def Action.complaint (e : ParseError) : Action → String
  | .check _ true => printJson (faultReport e).sorted
  | _ => ""

/-- All that an outcome is but its log. -/
def Outcome.unlogged (o : Outcome) : Outcome := { o with log := [] }

/-! ## Texts -/

theorem onProgram_unlogged (source : String) (accept : Program → Outcome)
    (refuse : ParseError → Outcome) :
    (onProgram source accept refuse).unlogged = match Program.parse source with
      | .ok p => (accept p).unlogged
      | .error e => (refuse e).unlogged := by
  unfold onProgram Program.parse
  cases parsed : (Parser.program (some Parser.nestingLimit) (tokenize source)).result <;>
    simp only [parsed, Outcome.unlogged]

theorem execute_congr (takes : action.TakesProgram) (same : Program.parse s = Program.parse t) :
    (action.execute quiet s).unlogged = (action.execute quiet t).unlogged := by
  cases action with
  | check | parse | format | hash =>
    simp only [Action.execute]
    rw [onProgram_unlogged, onProgram_unlogged, same]
  | statement | tokens | version => exact takes.elim

theorem execute_refused (file : action.file? = some path) (refused : action.Refuses source e) :
    (action.execute quiet source).unlogged =
      { reject path e with stdout := action.complaint e } := by
  cases action with
  | check _ json =>
    cases file
    rw [Action.execute, onProgram_unlogged, show Program.parse source = .error e from refused]
    cases json <;> rfl
  | parse | format | hash =>
    cases file
    rw [Action.execute, onProgram_unlogged, show Program.parse source = .error e from refused]
    rfl
  | statement =>
    cases file
    rw [Action.execute, onStatements, show Statement.parse source = .error e from refused]
    rfl
  | tokens | version => exact refused.elim

/-- A text that is accepted is written to its file, in canonical form, only by the command that formats
it in place. -/
structure Accepts (action : Action) (path source : String) (o : Outcome) : Prop where
  code : o.code = 0
  keeps : action ≠ .format path true → o.written = none
  formats : action = .format path true →
    ∃ p, Program.parse source = .ok p ∧ o.written = some (path, p.text)

theorem execute_program (takes : action.TakesProgram) (file : action.file? = some path)
    (parsed : Program.parse source = .ok p) :
    Accepts action path source (action.execute quiet source).unlogged := by
  cases action with
  | check | parse | hash =>
    cases file
    rw [Action.execute, onProgram_unlogged, parsed]
    exact ⟨rfl, fun _ => rfl, nofun⟩
  | format _ write =>
    cases file
    rw [Action.execute, onProgram_unlogged, parsed]
    cases write with
    | true => exact ⟨rfl, fun other => absurd rfl other, fun _ => ⟨p, parsed, rfl⟩⟩
    | false => exact ⟨rfl, fun _ => rfl, nofun⟩
  | statement | tokens | version => exact takes.elim

theorem execute_accepted (file : action.file? = some path)
    (accepted : ∀ e, ¬ action.Refuses source e) :
    Accepts action path source (action.execute quiet source).unlogged := by
  cases action with
  | check | parse | format | hash =>
    cases parsed : Program.parse source with
    | ok p => exact execute_program trivial file parsed
    | error e => exact absurd parsed (accepted e)
  | statement =>
    cases parsed : Statement.parse source with
    | ok block =>
      rw [Action.execute, onStatements, parsed]
      exact ⟨rfl, fun _ => rfl, nofun⟩
    | error e => exact absurd parsed (accepted e)
  | tokens => exact ⟨rfl, fun _ => rfl, nofun⟩
  | version => cases file

/-! ## Files -/

theorem invocation_readable {read : String → Except ReadFailure String}
    (file : i.action.file? = some path) (there : read path = .ok source) :
    (i.execute read).unlogged = (i.action.execute i.quiet source).unlogged := by
  simp only [Invocation.execute, file, there]
  rfl

/-- All that a command line on the file at a path can come to. -/
inductive Ends (d : Directory) (action : Action) (path : String) (o : Outcome) : Prop where
  | unread (failure : ReadFailure) (unread : d.read path = .error failure) (code : o.code = 2)
      (stdout : o.stdout = "") (written : o.written = none)
  | refused (source : String) (e : ParseError) (read : d.read path = .ok source)
      (refused : action.Refuses source e) (code : o.code = 1) (stdout : o.stdout = action.complaint e)
      (written : o.written = none)
  | accepted (source : String) (read : d.read path = .ok source)
      (accepted : ∀ e, ¬ action.Refuses source e) (accepts : Accepts action path source o)

theorem invocation_ends (file : i.action.file? = some path) :
    Ends d i.action path (i.execute d.read) := by
  cases read : d.read path with
  | error failure =>
    have answer : (i.execute d.read).unlogged =
        { code := 2, stderr := s!"error: cannot read {path}: {failure.message}\n" } := by
      simp only [Invocation.execute, file, read]
      rfl
    exact .unread failure read (congrArg Outcome.code answer) (congrArg Outcome.stdout answer)
      (congrArg Outcome.written answer)
  | ok source =>
    have answer := invocation_readable file read
    by_cases refused : ∃ e, i.action.Refuses source e
    · obtain ⟨e, refused⟩ := refused
      have answer := answer.trans (execute_refused file refused)
      exact .refused source e read refused (congrArg Outcome.code answer)
        (congrArg Outcome.stdout answer) (congrArg Outcome.written answer)
    · have accepted := not_exists.mp refused
      have accepts : Accepts i.action path source (i.action.execute i.quiet source).unlogged :=
        execute_accepted file accepted
      rw [← answer] at accepts
      exact .accepted source read accepted ⟨accepts.code, accepts.keeps, accepts.formats⟩

/-- What a command line comes to on the file at a path, by the exit code. -/
structure Exact (d : Directory) (action : Action) (path : String) (o : Outcome) : Prop where
  unreadable : o.code = 2 ↔ d.Unreadable path
  refused : o.code = 1 ↔ ∃ text e, d.read path = .ok text ∧ action.Refuses text e
  accepted : o.code = 0 ↔ ∃ text, d.read path = .ok text ∧ ∀ e, ¬ action.Refuses text e
  kept : o.code ≠ 0 → o.apply d = d
  silent : o.code = 2 → o.stdout = ""
  complains : o.code = 1 → ∃ text e, d.read path = .ok text ∧ action.Refuses text e ∧
    o.stdout = action.complaint e

theorem Ends.exact (ends : Ends d action path o) : Exact d action path o := by
  cases ends with
  | unread failure unread code stdout written =>
    constructor
    case unreadable => exact iff_of_true code (Directory.unreadable_iff.mpr ⟨failure, unread⟩)
    case kept => exact fun _ => by rw [Outcome.apply, written]
    case silent => exact fun _ => stdout
    all_goals simp [code, unread]
  | refused source e read refused code stdout written =>
    constructor
    case unreadable => simp [code, Directory.unreadable_iff, read]
    case refused => exact iff_of_true code ⟨source, e, read, refused⟩
    case accepted =>
      refine iff_of_false (by simp [code]) ?_
      rintro ⟨text, also, accepted⟩
      cases read.symm.trans also
      exact accepted e refused
    case kept => exact fun _ => by rw [Outcome.apply, written]
    case silent => simp [code]
    case complains => exact fun _ => ⟨source, e, read, refused, stdout⟩
  | accepted source read accepted accepts =>
    constructor
    case unreadable => simp [accepts.code, Directory.unreadable_iff, read]
    case refused => simp [accepts.code, read, accepted]
    case accepted => exact iff_of_true accepts.code ⟨source, read, accepted⟩
    all_goals simp [accepts.code]

/-- One file held a program before and holds its canonical text after, and all others are as they
were. -/
def Directory.Formatted (before : Directory) (path : String) (after : Directory) : Prop :=
  ∃ name bytes text p, before.find path = .ok (name, bytes) ∧ Text.decode? bytes = some text ∧
    Program.parse text = .ok p ∧ after.find path = .ok (name, Text.encode p.text) ∧
    ∀ other ≠ name, after.entries.lookup other = before.entries.lookup other

theorem formatted_write (read : d.read path = .ok source) (parsed : Program.parse source = .ok p) :
    d.Formatted path (d.write path p.text) := by
  obtain ⟨name, bytes, found, decoded⟩ := Directory.find_of_read read
  have there := Directory.lookup_of_find found
  refine ⟨name, bytes, source, p, found, decoded, parsed, ?_, fun other differs => ?_⟩
  · simp [Directory.write_eq p.text found, Directory.find_rewritten there, found, Except.map]
  · rw [Directory.write_eq p.text found, Directory.lookup_rewritten, if_neg differs]

theorem Ends.formats (ends : Ends d action path o) (code : o.code = 0)
    (inPlace : action = .format path true) :
    ∃ source p, d.read path = .ok source ∧ Program.parse source = .ok p ∧
      o.apply d = d.write path p.text := by
  cases ends with
  | unread _ _ failed | refused _ _ _ _ failed => simp [code] at failed
  | accepted source read _ accepts =>
    obtain ⟨p, parsed, written⟩ := accepts.formats inPlace
    exact ⟨source, p, read, parsed, by rw [Outcome.apply, written]⟩

theorem Ends.writes (ends : Ends d action path o) (changed : o.apply d ≠ d) :
    o.code = 0 ∧ action = .format path true := by
  cases ends with
  | unread _ _ _ _ written | refused _ _ _ _ _ _ written =>
    rw [Outcome.apply, written] at changed
    exact absurd rfl changed
  | accepted source read _ accepts =>
    refine ⟨accepts.code, ?_⟩
    refine Decidable.byContradiction fun other => changed ?_
    rw [Outcome.apply, accepts.keeps other]

/-! ## Answers after a file has been written -/

theorem invocation_congr {read again : String → Except ReadFailure String}
    (takes : i.action.TakesProgram)
    (same : ∀ path, again path = read path ∨ ∃ s t, read path = .ok s ∧ again path = .ok t ∧
      Program.parse t = Program.parse s) :
    (i.execute again).unlogged = (i.execute read).unlogged := by
  cases file : i.action.file? with
  | none => simp only [Invocation.execute, file]
  | some path =>
    rcases same path with unchanged | ⟨s, t, before, after, parse⟩
    · simp only [Invocation.execute, file, unchanged]
    · rw [invocation_readable file before, invocation_readable file after]
      exact execute_congr takes parse

theorem parse_text_of_parse (parsed : Program.parse source = .ok p) : Program.parse p.text = .ok p :=
  (parse_program_text (Parser.wellFormed_of_program parsed)).1 (fitsLimit_of_parse parsed)

theorem answers_of_write (read : d.read path = .ok source) (parsed : Program.parse source = .ok p)
    (takes : i.action.TakesProgram) :
    (i.execute (d.write path p.text).read).unlogged = (i.execute d.read).unlogged := by
  refine invocation_congr takes fun other => ?_
  rcases Directory.read_write read p.text other with unchanged | ⟨before, after⟩
  · exact .inl unchanged
  · exact .inr ⟨source, p.text, before, after, by rw [parsed, parse_text_of_parse parsed]⟩

theorem respond_run (accepted : Request.ofArguments arguments = .run i)
    (read : String → Except ReadFailure String) :
    respond read arguments = .outcome (i.execute read) := by
  rw [respond, accepted]

/-- Command lines on programs are answered in both directories alike. -/
def SameAnswers (before after : Directory) : Prop :=
  ∀ arguments i, Request.ofArguments arguments = .run i → i.action.TakesProgram →
    ∃ o o', respond before.read arguments = .outcome o ∧
      respond after.read arguments = .outcome o' ∧ o'.unlogged = o.unlogged

theorem sameAnswers_write (read : d.read path = .ok source) (parsed : Program.parse source = .ok p) :
    SameAnswers d (d.write path p.text) := fun _ _ accepted takes =>
  ⟨_, _, respond_run accepted _, respond_run accepted _, answers_of_write read parsed takes⟩

/-- Formatting the file at the path in place changes nothing. -/
def Settled (d : Directory) (path : String) : Prop :=
  ∀ arguments i, Request.ofArguments arguments = .run i → i.action = .format path true →
    ∃ o, respond d.read arguments = .outcome o ∧ o.apply d = d

theorem settled_write (read : d.read path = .ok source) (parsed : Program.parse source = .ok p) :
    Settled (d.write path p.text) path := by
  intro arguments i accepted inPlace
  have file : i.action.file? = some path := by rw [inPlace]; rfl
  have ends := invocation_ends (d := d.write path p.text) file
  -- Only a canonical text can have been written, and the file holds that of `p` already.
  refine ⟨_, respond_run accepted _, Decidable.byContradiction fun changed => changed ?_⟩
  obtain ⟨text, q, held, canonical, applied⟩ := ends.formats (ends.writes changed).1 inPlace
  rw [Directory.read_written read] at held
  cases held
  rw [parse_text_of_parse parsed] at canonical
  cases canonical
  rw [applied, Directory.write_again read]

/-- The exit code tells whether there was a text and whether it was accepted. Files are written only by
a command line that formats one in place and ends with code 0, which changes no other file, and after
which programs are answered for as before. -/
theorem tool_keeps_files (accepted : Request.ofArguments arguments = .run i) (d : Directory) :
    ∃ o, respond d.read arguments = .outcome o ∧
      (o.apply d ≠ d → o.code = 0 ∧ ∃ path, i.action = .format path true) ∧
      ∀ path, i.action.file? = some path →
        Exact d i.action path o ∧
        (o.code = 0 → i.action = .format path true →
          d.Formatted path (o.apply d) ∧ SameAnswers d (o.apply d) ∧ Settled (o.apply d) path) := by
  refine ⟨_, respond_run accepted _, fun changed => ?_, fun path file => ?_⟩
  · cases file : i.action.file? with
    | none =>
      simp only [Invocation.execute, file] at changed
      exact absurd rfl changed
    | some path =>
      obtain ⟨code, inPlace⟩ := (invocation_ends file).writes changed
      exact ⟨code, path, inPlace⟩
  · have ends := invocation_ends (d := d) file
    refine ⟨ends.exact, fun code inPlace => ?_⟩
    obtain ⟨source, p, read, parsed, applied⟩ := ends.formats code inPlace
    rw [applied]
    exact ⟨formatted_write read parsed, sameAnswers_write read parsed, settled_write read parsed⟩

/-- A program on one line, in a file that is found past an empty folder. -/
def oneLine : Directory :=
  ⟨[("out", .folder), ("p.bl", .file (Text.encode "PROGRAM p IS BEGIN move END p"))]⟩

theorem find_oneLine :
    oneLine.find "out/../p.bl" = .ok ("p.bl", Text.encode "PROGRAM p IS BEGIN move END p") := by
  have parts : (Directory.parts "out/../p.bl".toList).map String.ofList = ["out", "..", "p.bl"] := by
    decide +kernel
  rw [Directory.find_eq, if_neg (by decide +kernel), if_neg (by decide +kernel), parts]
  rfl

theorem read_oneLine : oneLine.read "out/../p.bl" = .ok "PROGRAM p IS BEGIN move END p" := by
  rw [Directory.read_eq, find_oneLine]
  simp [Text.decode?_encode]

theorem parse_oneLine :
    Program.parse "PROGRAM p IS BEGIN move END p" = .ok ⟨"p", .empty, .block [.call "move"]⟩ := rfl

theorem tool_keeps_files_one_line :
    Request.ofArguments ["-q", "fmt", "--write", "out/../p.bl"] =
        .run ⟨.format "out/../p.bl" true, true, false⟩ ∧
      ∃ o, respond oneLine.read ["-q", "fmt", "--write", "out/../p.bl"] = .outcome o ∧
        o.code = 0 ∧ o.apply oneLine ≠ oneLine ∧ oneLine.Formatted "out/../p.bl" (o.apply oneLine) ∧
        SameAnswers oneLine (o.apply oneLine) ∧ Settled (o.apply oneLine) "out/../p.bl" := by
  have accepted : Request.ofArguments ["-q", "fmt", "--write", "out/../p.bl"] =
      .run ⟨.format "out/../p.bl" true, true, false⟩ := by decide +kernel
  obtain ⟨o, answered, -, onFile⟩ := tool_keeps_files accepted oneLine
  obtain ⟨exact, formats⟩ := onFile "out/../p.bl" rfl
  have code : o.code = 0 := exact.accepted.mpr ⟨_, read_oneLine, fun e refused => by
    simp [Action.Refuses, parse_oneLine] at refused⟩
  have formatted := formats code rfl
  refine ⟨accepted, o, answered, code, fun unchanged => ?_, formatted⟩
  obtain ⟨name, bytes, text, p, before, decoded, canonical, after, -⟩ := formatted.1
  cases find_oneLine.symm.trans before
  cases (Text.decode?_encode _).symm.trans decoded
  cases parse_oneLine.symm.trans canonical
  rw [unchanged, find_oneLine] at after
  have same := Text.encode_injective (congrArg (·.2) (Except.ok.inj after))
  exact absurd same (by decide +kernel)

end RobotLang.CommandLine
