import RobotLang.Proofs.JsonOrder
import RobotLang.Proofs.Tool

/-!
Hosts and the command line tool. On a text that a zero can close, the services answer both kinds of
hosts with what the tool prints for a file that holds the text, or with what it says is wrong. Only the
program as JSON comes in two arrangements of one value. A host that hands over bytes gets a result or a
message, and what stands behind a zero does not count.

Main statement: `hosts_agree`.
-/

namespace RobotLang

open CommandLine RobotLang.Embedding

variable {d : Directory} {path text t result message : String} {p : Program} {e : ParseError}
  {service : Service} {action : Action}

/-! ## Answers -/

namespace Embedding

/-- Both kinds of hosts get the result. -/
def Service.Gives (service : Service) (text result : String) : Prop :=
  service.answerBytes (some (Text.encode text)) = ⟨some result, none⟩ ∧
    service.answerText text = .ok result

/-- Both kinds of hosts get the message. -/
def Service.Refuses (service : Service) (text message : String) : Prop :=
  service.answerBytes (some (Text.encode text)) = ⟨none, some message⟩ ∧
    (service.answerText text).mapError Diagnostic.display = .error message

theorem readBytes?_encode (text : String) :
    readBytes? (Text.encode text) = some (Text.beforeZero text) := by
  rw [readBytes?, Text.takeWhile_encode, Text.decode?_encode]

theorem answerBytes_encode (service : Service) (text : String) :
    service.answerBytes (some (Text.encode text)) =
      .ofResult ((service.answer id (Text.beforeZero text)).mapError Diagnostic.display) := by
  simp only [Service.answerBytes, Option.bind_some, readBytes?_encode]

theorem ofResult_ok (clean : ZeroFree result) : Reply.ofResult (.ok result) = ⟨some result, none⟩ := by
  rw [Reply.ofResult, withoutZeros_eq clean]

theorem ofResult_error (clean : ZeroFree message) :
    Reply.ofResult (.error message) = ⟨none, some message⟩ := by
  rw [Reply.ofResult, withoutZeros_eq clean]

theorem answerBytes_of_ok (free : ZeroFree text) (answered : service.answer id text = .ok result)
    (clean : ZeroFree result) :
    service.answerBytes (some (Text.encode text)) = ⟨some result, none⟩ := by
  rw [answerBytes_encode, Text.beforeZero_eq free, answered]
  exact ofResult_ok clean

theorem answerBytes_of_error {d : Diagnostic} (free : ZeroFree text)
    (answered : service.answer id text = .error d) (clean : ZeroFree d.display) :
    service.answerBytes (some (Text.encode text)) = ⟨none, some d.display⟩ := by
  rw [answerBytes_encode, Text.beforeZero_eq free, answered]
  exact ofResult_error clean

theorem ofResult_one_of_two (answer : Except String String) :
    (Reply.ofResult answer).result.isNone = (Reply.ofResult answer).error.isSome := by
  cases answer <;> rfl

theorem answerBytes_eq (service : Service) (bytes : Option (List UInt8)) :
    service.answerBytes bytes = .ofResult (match bytes.bind readBytes? with
      | none => .error "null or invalid UTF-8 input"
      | some text => (service.answer id text).mapError Diagnostic.display) := by
  unfold Service.answerBytes
  cases bytes.bind readBytes? <;> rfl

theorem refuses_of_error (free : ZeroFree text) (refused : Program.parse text = .error e)
    (onProgram : service ≠ .check) : service.Refuses text e.diagnostic.display := by
  have answered (arrange : Json → Json) : service.answer arrange text = .error e.diagnostic := by
    cases service with
    | check => exact absurd rfl onProgram
    | _ => simp only [Service.answer, refused]
  refine ⟨answerBytes_of_error free (answered id) (zeroFree_error free refused), ?_⟩
  rw [Service.answerText, answered]
  rfl

theorem gives_check (free : ZeroFree text) :
    Service.check.Gives text (checkReport text).sorted.spread :=
  ⟨answerBytes_of_ok free rfl (plain_checkReport text).sorted.zeroFree_spread, rfl⟩

end Embedding

/-! ## What the tool prints -/

namespace CommandLine

/-- Every command line with this action ends with the code and prints this. -/
def Tells (d : Directory) (action : Action) (code : Nat) (stdout stderr : String) : Prop :=
  ∀ arguments i, Request.ofArguments arguments = .run i → i.action = action →
    ∃ o, respond d.read arguments = .outcome o ∧ o.code = code ∧ o.stdout = stdout ∧
      o.stderr = stderr

theorem tells_of_execute {o : Outcome} (held : d.read path = .ok text)
    (file : action.file? = some path)
    (answer : ∀ quiet, (action.execute quiet text).unlogged = o) :
    Tells d action o.code o.stdout o.stderr := by
  rintro arguments i accepted rfl
  rw [← answer i.quiet, ← invocation_readable file held]
  exact ⟨_, respond_run accepted _, rfl, rfl, rfl⟩

end CommandLine

/-! ## Agreement -/

/-- The answers to a text that is a program, and what the tool prints for a file that holds it. -/
structure AgreeOnProgram (d : Directory) (path text : String) (p : Program) : Prop where
  format : Service.format.Gives text p.text
  formatTool : Tells d (.format path false) 0 p.text ""
  parseTool : Tells d (.parse path false) 0 p.text ""
  fingerprint : Service.fingerprint.Gives text p.fingerprint
  fingerprintTool : Tells d (.hash path) 0 (p.fingerprint ++ "\n") ""
  check : ∃ report, Service.check.Gives text report
  tree : Service.tree.answerBytes (some (Text.encode text)) = ⟨some p.toJson.spread, none⟩
  treeTool : Tells d (.parse path true) 0 (p.toJson.spread ++ "\n") ""
  treeText : Service.tree.answerText text = .ok p.toJson.sorted.spread
  rearranged : p.toJson.sorted.Same p.toJson ∧ p.toJson.sorted.Ascending

/-- The answers to a text that is no program, and what the tool prints for a file that holds it. -/
structure AgreeOnError (d : Directory) (path text : String) (e : ParseError) : Prop where
  refused : ∀ service : Service, service ≠ .check → service.Refuses text e.diagnostic.display
  tool : ∀ action : Action, action.TakesProgram → action.file? = some path →
    action ≠ .check path true →
    Tells d action 1 "" s!"error: {path}: {e.diagnostic.display}\n"
  check : ∃ report, Service.check.Gives text report ∧
    Tells d (.check path true) 1 (report ++ "\n") s!"error: {path}: {e.diagnostic.display}\n"

theorem agreeOnProgram (held : d.read path = .ok text) (free : ZeroFree text)
    (parsed : Program.parse text = .ok p) : AgreeOnProgram d path text p := by
  have answered {accept : Program → CommandLine.Outcome} {refuse : ParseError → CommandLine.Outcome} :
      (onProgram text accept refuse).unlogged = (accept p).unlogged := by
    rw [onProgram_unlogged, parsed]
  have tool {action : Action} {out : String} (file : action.file? = some path)
      (answer : ∀ quiet, (action.execute quiet text).unlogged = { code := 0, stdout := out }) :
      Tells d action 0 out "" := tells_of_execute held file answer
  have gives {service : Service} {result : String} (clean : ZeroFree result)
      (answer : ∀ arrange, service.answer arrange text = .ok result) : service.Gives text result :=
    ⟨answerBytes_of_ok free (answer id) clean, answer Json.sorted⟩
  have canonical := zeroFree_text (Parser.wellFormed_of_program parsed)
  constructor
  case format => exact gives canonical fun _ => by simp only [Service.answer, parsed]
  case formatTool => exact tool rfl fun _ => answered
  case parseTool => exact tool rfl fun _ => answered
  case fingerprint => exact gives (zeroFree_sha256 _) fun _ => by simp only [Service.answer, parsed]
  case fingerprintTool => exact tool rfl fun _ => answered
  case check => exact ⟨_, gives_check free⟩
  case tree =>
    have answer : Service.tree.answer id text = .ok p.toJson.spread := by
      simp only [Service.answer, parsed, id]
    exact answerBytes_of_ok free answer p.plain_toJson.zeroFree_spread
  case treeTool => exact tool rfl fun _ => answered
  case treeText => simp only [Service.answerText, Service.answer, parsed]
  case rearranged => exact ⟨p.toJson.sorted_same, p.plain_toJson.ascending⟩

theorem complaint_eq_empty (file : action.file? = some path) (other : action ≠ .check path true) :
    action.complaint e = "" := by
  cases action with
  | check _ json =>
    cases file
    cases json with
    | true => exact absurd rfl other
    | false => rfl
  | _ => rfl

theorem agreeOnError (held : d.read path = .ok text) (free : ZeroFree text)
    (refused : Program.parse text = .error e) : AgreeOnError d path text e := by
  have tool {action : Action} (takes : action.TakesProgram) (file : action.file? = some path) :
      Tells d action 1 (action.complaint e) s!"error: {path}: {e.diagnostic.display}\n" := by
    have refuses : action.Refuses text e := by
      cases action <;> first | exact refused | exact takes.elim
    exact tells_of_execute held file fun _ => execute_refused file refuses
  constructor
  case refused => exact fun _ onProgram => refuses_of_error free refused onProgram
  case tool =>
    intro action takes file other
    rw [← complaint_eq_empty (e := e) file other]
    exact tool takes file
  case check =>
    have report : checkReport text = faultReport e := by rw [checkReport, refused]; rfl
    refine ⟨_, gives_check free, ?_⟩
    rw [report]
    exact tool trivial rfl

/-- The front ends agree on all texts: on programs, on what is wrong with the others, and on what
stands behind a zero. Bytes that are no text are refused by all services. -/
theorem hosts_agree :
    (∀ d path text, d.read path = .ok text → ZeroFree text →
      (∀ p, Program.parse text = .ok p → AgreeOnProgram d path text p) ∧
      ∀ e, Program.parse text = .error e → AgreeOnError d path text e) ∧
    (∀ (service : Service) bytes,
      (service.answerBytes bytes).result.isNone = (service.answerBytes bytes).error.isSome) ∧
    (∀ (service : Service) text, service.answerBytes (some (Text.encode text)) =
      service.answerBytes (some (Text.encode (Text.beforeZero text)))) ∧
    ∀ (service : Service) bytes,
      bytes = none ∨ (∃ given, bytes = some given ∧ Text.decode? (given.takeWhile (· ≠ 0)) = none) →
        service.answerBytes bytes = ⟨none, some "null or invalid UTF-8 input"⟩ := by
  refine ⟨fun d path text held free => ⟨fun p => agreeOnProgram held free,
    fun e => agreeOnError held free⟩, fun service bytes => ?_, fun service text => ?_,
    fun service bytes unread => ?_⟩
  · rw [answerBytes_eq]
    exact ofResult_one_of_two _
  · have once := Text.beforeZero_eq (Text.zeroFree_beforeZero text)
    rw [answerBytes_encode, answerBytes_encode, once]
  · have nothing : bytes.bind readBytes? = none := by
      rcases unread with rfl | ⟨given, rfl, noText⟩
      · rfl
      · exact noText
    rw [answerBytes_eq, nothing]
    exact ofResult_error (by decide)

/-- A program, with and without a zero behind it, and a byte that begins no character. -/
theorem hosts_agree_one_line :
    AgreeOnProgram oneLine "out/../p.bl" "PROGRAM p IS BEGIN move END p"
        ⟨"p", .empty, .block [.call "move"]⟩ ∧
      Service.format.answerBytes (some (Text.encode "PROGRAM p IS BEGIN move END p\x00END")) =
        Service.format.answerBytes (some (Text.encode "PROGRAM p IS BEGIN move END p")) ∧
      Service.check.answerBytes (some [0xff]) = ⟨none, some "null or invalid UTF-8 input"⟩ := by
  obtain ⟨onTexts, -, atZero, unread⟩ := hosts_agree
  have free : ZeroFree "PROGRAM p IS BEGIN move END p" := by decide +kernel
  have before : Text.beforeZero "PROGRAM p IS BEGIN move END p\x00END" =
      "PROGRAM p IS BEGIN move END p" := by decide +kernel
  have noText : Text.decode? [0xff] = none := by decide +kernel
  refine ⟨(onTexts _ _ _ read_oneLine free).1 _ parse_oneLine, ?_, ?_⟩
  · rw [atZero, before]
  · exact unread .check _ (.inr ⟨_, rfl, noText⟩)

end RobotLang
