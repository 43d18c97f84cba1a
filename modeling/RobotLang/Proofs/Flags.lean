import RobotLang.Proofs.Edits
import RobotLang.Proofs.Tool

/-!
Switches for the whole tool. One that is put before all other arguments, none of which gives it, is
added to what they ask for (`readAll_flag`). So `-v` changes the log, `--no-color` changes nothing, and
`-q` takes away the line that tells of a success (`flags_exact`).
-/

namespace RobotLang.CommandLine

open Edit (bind_eq_ok)

variable {s : Switch} {argument flag : String} {arguments : List String} {given given' : List Switch}
  {letters : List (Option Switch)} {allowed : List Switch} {command : Command} {i : Invocation}
  {read : String → Except ReadFailure String}

/-! ## Switches among arguments -/

/-- The argument gives the switch, by its word or by a letter. -/
def Gives (s : Switch) (argument : String) : Prop :=
  ∃ letters, formOf argument = .switches letters ∧ some s ∈ letters

/-- The switch is given where switches are read, which is before `--`. -/
def Carries (s : Switch) (arguments : List String) : Prop :=
  ∃ argument ∈ arguments.takeWhile (· ≠ "--"), Gives s argument

instance (s : Switch) (argument : String) : Decidable (Gives s argument) :=
  match form : formOf argument with
  | .switches letters => decidable_of_iff (some s ∈ letters)
      ⟨fun mem => ⟨letters, form, mem⟩,
        fun ⟨_, same, mem⟩ => Form.switches.inj (form.symm.trans same) ▸ mem⟩
  | .escape | .value => .isFalse fun ⟨_, same, _⟩ => Form.noConfusion (form.symm.trans same)

instance (s : Switch) (arguments : List String) : Decidable (Carries s arguments) :=
  inferInstanceAs (Decidable (∃ argument ∈ _, _))

/-- The second list has the switch besides what the first one has. -/
def Adds (s : Switch) (given given' : List Switch) : Prop := ∀ x, x ∈ given' ↔ x = s ∨ x ∈ given

def Invocation.adding (i : Invocation) (s : Switch) : Invocation :=
  { i with quiet := i.quiet || s == .quiet, verbose := i.verbose || s == .verbose }

theorem formOf_eq_escape_iff : formOf argument = .escape ↔ argument = "--" := by
  unfold formOf
  split
  · simpa
  · rename_i other
    split <;> simp [other]

theorem carries_cons (notEscape : argument ≠ "--") :
    Carries s (argument :: arguments) ↔ Gives s argument ∨ Carries s arguments := by
  rw [Carries, List.takeWhile_cons_of_pos (by simpa using notEscape)]
  simp [Carries]

theorem ne_escape_of_switches (form : formOf argument = .switches letters) : argument ≠ "--" := by
  intro isEscape
  rw [formOf_eq_escape_iff.mpr isEscape] at form
  cases form

theorem ne_escape_of_value (form : formOf argument = .value) : argument ≠ "--" := by
  intro isEscape
  rw [formOf_eq_escape_iff.mpr isEscape] at form
  cases form

theorem Adds.contains (adds : Adds s given given') (more : List Switch) (x : Switch) :
    (given' ++ more).contains x = ((given ++ more).contains x || s == x) := by
  rw [Bool.eq_iff_iff]
  simp only [List.contains_eq_mem, List.mem_append, adds x, Bool.or_eq_true, decide_eq_true_eq,
    beq_iff_eq, eq_comm (a := s)]
  exact or_assoc.trans or_comm

/-! ## Reading with one more switch -/

/-- Reading stops alike, or goes on with the switch added. -/
inductive Alike (s : Switch) : Except Stop (List Switch) → Except Stop (List Switch) → Prop
  | stopped (stop : Stop) : Alike s (.error stop) (.error stop)
  | goesOn {given given' : List Switch} (adds : Adds s given given') : Alike s (.ok given) (.ok given')

theorem readSwitch_alike (adds : Adds s given given') {letter : Option Switch}
    (other : letter ≠ some s) :
    Alike s (readSwitch allowed given letter) (readSwitch allowed given' letter) := by
  cases letter with
  | none => exact .stopped .refused
  | some x =>
    have notIt : x ≠ s := fun same => other (congrArg some same)
    have same : given'.contains x = given.contains x := by simp [adds x, notIt]
    have further : Adds s (x :: given) (x :: given') := by
      intro y
      rw [List.mem_cons, List.mem_cons, adds y]
      exact or_left_comm
    simp only [readSwitch]
    split
    · exact .stopped .refused
    split
    · exact .stopped .help
    · exact .stopped .version
    · rw [same]
      split
      · exact .stopped .refused
      · exact .goesOn further

theorem readSwitches_alike (adds : Adds s given given') (others : some s ∉ letters) :
    Alike s (letters.foldlM (readSwitch allowed) given)
      (letters.foldlM (readSwitch allowed) given') := by
  induction letters generalizing given given' with
  | nil => exact .goesOn adds
  | cons letter letters ih =>
    rw [List.mem_cons, not_or] at others
    have first : Alike s (readSwitch allowed given letter) (readSwitch allowed given' letter) :=
      readSwitch_alike adds (Ne.symm others.1)
    rw [List.foldlM_cons, List.foldlM_cons]
    generalize readSwitch allowed given letter = read, readSwitch allowed given' letter = read'
      at first
    cases first with
    | stopped stop => exact .stopped stop
    | goesOn adds => exact ih adds others.2

theorem readTail_adding (adds : Adds s given given') (arguments : List String) :
    readTail command given' arguments =
      (readTail command given arguments).map (·.adding s) := by
  simp only [readTail]
  cases arguments.foldlM (Tail.read command) ⟨[], none, false⟩ with
  | error stop => rfl
  | ok tail =>
    cases action : tail.action command with
    | error stop => simp [Bind.bind, Except.bind, action, Except.map]
    | ok action' =>
      simp only [Bind.bind, Except.bind, action, Except.map, Pure.pure, Except.pure,
        adds.contains tail.given]
      rfl

/-- Reading with one more switch comes to the same, with the switch added. -/
theorem readAll_adding (adds : Adds s given given') (absent : ¬ Carries s arguments) :
    readAll given' arguments = (readAll given arguments).map (·.adding s) := by
  -- Nothing but the list of what has been given tells the two readings apart.
  induction arguments generalizing given given' with
  | nil => rfl
  | cons argument arguments ih =>
    simp only [readAll]
    cases form : formOf argument with
    | escape => rfl
    | switches letters =>
      rw [carries_cons (ne_escape_of_switches form), not_or] at absent
      have others : some s ∉ letters := fun mem => absent.1 ⟨letters, form, mem⟩
      have read : Alike s (letters.foldlM (readSwitch leadingSwitches) given)
          (letters.foldlM (readSwitch leadingSwitches) given') := readSwitches_alike adds others
      simp only
      generalize letters.foldlM (readSwitch leadingSwitches) given = more,
        letters.foldlM (readSwitch leadingSwitches) given' = more' at read
      cases read with
      | stopped stop => rfl
      | goesOn adds => exact ih adds absent.2
    | value =>
      simp only
      split
      · rfl
      · split
        · exact readTail_adding adds arguments
        · rfl

/-- A switch for the whole tool that stands first is read and added. -/
theorem readAll_flag (form : formOf flag = .switches [some s])
    (leads : s ∈ [Switch.quiet, .verbose, .noColor]) (absent : ¬ Carries s arguments) :
    readAll [] (flag :: arguments) = (readAll [] arguments).map (·.adding s) := by
  have first : [some s].foldlM (readSwitch leadingSwitches) [] = .ok [s] := by
    simp only [List.mem_cons, List.not_mem_nil, or_false] at leads
    rcases leads with rfl | rfl | rfl <;> rfl
  rw [readAll, form]
  simp only [first]
  exact readAll_adding (fun x => by simp) absent

/-! ## What arguments ask for -/

def Invocation.Has (i : Invocation) : Switch → Prop
  | .quiet => i.quiet = true
  | .verbose => i.verbose = true
  | _ => False

theorem mem_of_readSwitch {more : List Switch} {letter : Option Switch}
    (came : readSwitch allowed given letter = .ok more) (mem : s ∈ more) :
    s ∈ given ∨ letter = some s := by
  cases letter with
  | none => cases came
  | some x =>
    simp only [readSwitch] at came
    split at came
    · cases came
    split at came
    · cases came
    · cases came
    · split at came <;> cases came
      rcases List.mem_cons.mp mem with rfl | mem
      · exact .inr rfl
      · exact .inl mem

theorem mem_of_readSwitches {more : List Switch}
    (came : letters.foldlM (readSwitch allowed) given = .ok more) (mem : s ∈ more) :
    s ∈ given ∨ some s ∈ letters := by
  induction letters generalizing given with
  | nil =>
    cases came
    exact .inl mem
  | cons letter letters ih =>
    rw [List.foldlM_cons, bind_eq_ok] at came
    obtain ⟨between, first, rest⟩ := came
    rcases ih rest with mem | mem
    · rcases mem_of_readSwitch first mem with mem | rfl
      · exact .inl mem
      · exact .inr List.mem_cons_self
    · exact .inr (List.mem_cons_of_mem _ mem)

theorem given_of_readValue {t t' : Tail} (came : t.readValue command argument = .ok t') :
    t'.given = t.given ∧ t'.escaped = t.escaped := by
  unfold Tail.readValue at came
  split at came <;> cases came
  exact ⟨rfl, rfl⟩

theorem carries_of_tail {t t' : Tail} (came : arguments.foldlM (Tail.read command) t = .ok t')
    (mem : s ∈ t'.given) : s ∈ t.given ∨ t.escaped = false ∧ Carries s arguments := by
  induction arguments generalizing t with
  | nil =>
    cases came
    exact .inl mem
  | cons argument arguments ih =>
    rw [List.foldlM_cons, bind_eq_ok] at came
    obtain ⟨between, first, rest⟩ := came
    have behind := ih rest
    unfold Tail.read at first
    split at first
    · rename_i escaped
      obtain ⟨given, stays⟩ := given_of_readValue first
      rw [given, stays, escaped] at behind
      exact .inl (by simpa using behind)
    · rename_i reads
      have reads : t.escaped = false := by simpa using reads
      split at first
      · cases first
        exact .inl (by simpa using behind)
      · rename_i letters form
        obtain ⟨more, read, ⟨⟩⟩ := bind_eq_ok.mp first
        rw [carries_cons (ne_escape_of_switches form)]
        rcases behind with mem | ⟨-, carries⟩
        · exact (mem_of_readSwitches read mem).imp id fun mem => ⟨reads, .inl ⟨letters, form, mem⟩⟩
        · exact .inr ⟨reads, .inr carries⟩
      · rename_i form
        obtain ⟨given, stays⟩ := given_of_readValue first
        rw [given, stays] at behind
        rw [carries_cons (ne_escape_of_value form)]
        exact behind.imp id (And.imp id .inr)

theorem carries_of_has (came : readAll given arguments = .ok i) (has : i.Has s) :
    s ∈ given ∨ Carries s arguments := by
  induction arguments generalizing given with
  | nil => cases came
  | cons argument arguments ih =>
    simp only [readAll] at came
    split at came
    · cases came
    · rename_i letters form
      obtain ⟨more, read, rest⟩ := bind_eq_ok.mp came
      rw [carries_cons (ne_escape_of_switches form)]
      rcases ih rest with mem | carries
      · exact (mem_of_readSwitches read mem).imp id fun mem => .inl ⟨letters, form, mem⟩
      · exact .inr (.inr carries)
    · rename_i form
      rw [carries_cons (ne_escape_of_value form)]
      split at came
      · cases came
      split at came
      · rename_i command _
        obtain ⟨tail, read, rest⟩ := bind_eq_ok.mp came
        obtain ⟨action, -, ⟨⟩⟩ := bind_eq_ok.mp rest
        have mem : s ∈ given ++ tail.given := by
          cases s <;> simp_all [Invocation.Has]
        rcases List.mem_append.mp mem with mem | mem
        · exact .inl mem
        · rcases carries_of_tail read mem with mem | ⟨-, carries⟩
          · cases mem
          · exact .inr (.inr carries)
      · cases came

/-! ## Responses -/

def Response.unlogged : Response → Response
  | usage code => usage code
  | outcome o => outcome o.unlogged

theorem respond_flag (form : formOf flag = .switches [some s])
    (leads : s ∈ [Switch.quiet, .verbose, .noColor]) (absent : ¬ Carries s arguments)
    (read : String → Except ReadFailure String) :
    respond read (flag :: arguments) = match Request.ofArguments arguments with
      | .help => .usage 0
      | .refused => .usage 2
      | .run i => .outcome ((i.adding s).execute read) := by
  rw [respond, Request.ofArguments, Request.ofArguments, readAll_flag form leads absent]
  cases readAll [] arguments with
  | ok i => rfl
  | error stop => cases stop <;> rfl

theorem execute_verbose (i : Invocation) (read : String → Except ReadFailure String) :
    ((i.adding .verbose).execute read).unlogged = (i.execute read).unlogged := by
  have quiet : (i.adding .verbose).quiet = i.quiet := Bool.or_false _
  simp only [Invocation.execute, quiet, show (i.adding .verbose).action = i.action from rfl]
  cases i.action.file? <;> rfl

theorem adding_noColor (i : Invocation) : i.adding .noColor = i := by
  obtain ⟨action, quiet, verbose⟩ := i
  simp [Invocation.adding]

def Action.successLine (p : Program) : Action → Option String
  | .check file false =>
    some s!"✓ {file} is valid (program {p.name}, {p.context.size} instructions)\n"
  | .format file true => some s!"✓ formatted {file}\n"
  | _ => none

/-- The second outcome is the first one without its line that tells of a success, if it has one. -/
inductive Quieted (read : String → Except ReadFailure String) (action : Action) (o : Outcome) :
    Outcome → Prop
  | dropped {path text : String} {p : Program} (file : action.file? = some path)
      (there : read path = .ok text) (parsed : Program.parse text = .ok p)
      (line : action.successLine p = some o.stdout) : Quieted read action o { o with stdout := "" }
  | same (silent : ∀ path text p, action.file? = some path → read path = .ok text →
      Program.parse text = .ok p → action.successLine p = none) : Quieted read action o o

theorem onProgram_of_ok {text : String} {p : Program} (parsed : Program.parse text = .ok p)
    (accept : Program → Outcome) (refuse : ParseError → Outcome) :
    onProgram text accept refuse = { accept p with
      log := programLog (Parser.program (some Parser.nestingLimit) (tokenize text)) ++
        (accept p).log } := by
  rw [Program.parse] at parsed
  simp only [onProgram, parsed]

theorem onProgram_of_error {text : String} {e : ParseError} (parsed : Program.parse text = .error e)
    (accept : Program → Outcome) (refuse : ParseError → Outcome) :
    onProgram text accept refuse = { refuse e with
      log := programLog (Parser.program (some Parser.nestingLimit) (tokenize text)) ++
        (refuse e).log } := by
  rw [Program.parse] at parsed
  simp only [onProgram, parsed]

theorem action_quiet (action : Action) (text : String) :
    (∃ p, Program.parse text = .ok p ∧
      action.successLine p = some (action.execute false text).stdout ∧
      action.execute true text = { action.execute false text with stdout := "" }) ∨
    (∀ p, Program.parse text = .ok p → action.successLine p = none) ∧
      action.execute true text = action.execute false text := by
  cases parsed : Program.parse text with
  | error e =>
    refine .inr ⟨nofun, ?_⟩
    cases action with
    | check | format =>
      simp only [Action.execute]
      rw [onProgram_of_error parsed, onProgram_of_error parsed]
    | parse | statement | hash | tokens | version => rfl
  | ok p =>
    cases action with
    | check file json =>
      cases json with
      | true => exact .inr ⟨fun _ _ => rfl, rfl⟩
      | false =>
        left
        simp only [Action.execute]
        rw [onProgram_of_ok parsed, onProgram_of_ok parsed]
        exact ⟨p, rfl, rfl, rfl⟩
    | format file write =>
      cases write with
      | true =>
        left
        simp only [Action.execute]
        rw [onProgram_of_ok parsed, onProgram_of_ok parsed]
        exact ⟨p, rfl, rfl, rfl⟩
      | false => exact .inr ⟨fun _ _ => rfl, rfl⟩
    | parse | statement | hash | tokens | version => exact .inr ⟨fun _ _ => rfl, rfl⟩

theorem execute_quiet (notQuiet : i.quiet = false) (read : String → Except ReadFailure String) :
    Quieted read i.action (i.execute read) ((i.adding .quiet).execute read) := by
  obtain ⟨action, quiet, verbose⟩ := i
  cases notQuiet
  have adding : (⟨action, false, verbose⟩ : Invocation).adding .quiet = ⟨action, true, verbose⟩ := by
    simp [Invocation.adding]
  rw [adding]
  cases file : action.file? with
  | none =>
    simp only [Invocation.execute, file]
    exact .same (by simp [file])
  | some path =>
    cases there : read path with
    | error failure =>
      simp only [Invocation.execute, file, there]
      refine .same fun other text p file' there' _ => ?_
      cases file.symm.trans file'
      cases there.symm.trans there'
    | ok text =>
      simp only [Invocation.execute, file, there]
      rcases action_quiet action text with ⟨p, parsed, line, quiet⟩ | ⟨silent, quiet⟩
      · rw [quiet]
        exact .dropped file there parsed line
      · rw [quiet]
        refine .same fun other text' p file' there' parsed => ?_
        cases file.symm.trans file'
        cases there.symm.trans there'
        exact silent p parsed

/-- What each of the three switches changes that hold for the whole tool, when it is put first. -/
structure FlagsFirst (read : String → Except ReadFailure String) (arguments : List String) :
    Prop where
  verbose : ¬ Carries .verbose arguments →
    (respond read ("-v" :: arguments)).unlogged = (respond read arguments).unlogged
  noColor : ¬ Carries .noColor arguments →
    respond read ("--no-color" :: arguments) = respond read arguments
  quiet : ¬ Carries .quiet arguments → ∀ i o, Request.ofArguments arguments = .run i →
    respond read arguments = .outcome o →
      ∃ o', respond read ("-q" :: arguments) = .outcome o' ∧ Quieted read i.action o o'
  quietUsage : ¬ Carries .quiet arguments → ∀ code, respond read arguments = .usage code →
    respond read ("-q" :: arguments) = .usage code

theorem quiet_eq_false (accepted : Request.ofArguments arguments = .run i)
    (absent : ¬ Carries .quiet arguments) : i.quiet = false := by
  rw [Request.ofArguments] at accepted
  split at accepted
  · rename_i came
    cases accepted
    rw [← Bool.not_eq_true]
    intro given
    have has : i.Has .quiet := by simpa [Invocation.Has] using given
    rcases carries_of_has came has with mem | carries
    · cases mem
    · exact absent carries
  · cases accepted
  · cases accepted
    rfl
  · cases accepted

theorem flags_exact (read : String → Except ReadFailure String) (arguments : List String) :
    FlagsFirst read arguments where
  verbose absent := by
    rw [respond_flag (s := .verbose) rfl (by decide) absent, respond]
    cases Request.ofArguments arguments with
    | help | refused => rfl
    | run i => exact congrArg Response.outcome (execute_verbose i read)
  noColor absent := by
    rw [respond_flag (s := .noColor) rfl (by decide) absent, respond]
    cases Request.ofArguments arguments with
    | help | refused => rfl
    | run i => simp only [adding_noColor]
  quiet absent i o accepted answered := by
    rw [respond_flag (s := .quiet) rfl (by decide) absent, accepted]
    rw [respond, accepted] at answered
    cases answered
    exact ⟨_, rfl, execute_quiet (quiet_eq_false accepted absent) read⟩
  quietUsage absent code answered := by
    rw [respond_flag (s := .quiet) rfl (by decide) absent]
    rw [respond] at answered
    cases asked : Request.ofArguments arguments with
    | help | refused =>
      rw [asked] at answered
      exact answered
    | run i =>
      rw [asked] at answered
      cases answered

end RobotLang.CommandLine
