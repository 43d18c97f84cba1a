import RobotLang.Proofs.JoinedTexts
import RobotLang.Proofs.RepeatedNames
import RobotLang.Proofs.Totality

/-!
Errors point at tokens. An error stands where a token of its queue stands, and its message quotes this
token; a repeated name is found at the INSTRUCTION of its declaration, and the message quotes the name
behind it. So errors in texts always have a place, and errors in words that stand at no place have none
but are the same otherwise (`errors_point_at_tokens`).
-/

namespace RobotLang

/-! ## What messages quote -/

/-- The part stands somewhere in the text. -/
def Text.Contains (text part : String) : Prop := part.toList <:+: text.toList

namespace Text.Contains

variable {before part after : String}

theorem refl (part : String) : Contains part part := List.infix_rfl

theorem last (before part : String) : Contains (before ++ part) part := by
  rw [Contains, String.toList_append]
  exact (List.suffix_append _ _).isInfix

theorem append (h : Contains before part) (after : String) : Contains (before ++ after) part := by
  rw [Contains, String.toList_append]
  exact List.infix_append_of_infix_left h

theorem quoted (opens : before.toList.getLast? = some '"') (closes : after.toList.head? = some '"')
    (word : String) : Contains (before ++ word ++ after) s!"\"{word}\"" := by
  obtain ⟨first, opens⟩ := List.getLast?_eq_some_iff.mp opens
  obtain ⟨rest, closes⟩ := List.head?_eq_some_iff.mp closes
  refine ⟨first, rest, ?_⟩
  simp [opens, closes, toString]

end Text.Contains

namespace Fault

open Text.Contains

theorem contains_found {fault : Fault} {found : Found} (h : fault.found? = some found) :
    Text.Contains fault.message found.display := by
  cases fault with
  | keywordDue | branchEndDue | conditionDue | statementDue | afterProgram =>
    cases h
    exact last _ _
  | nameDue =>
    cases h
    exact (((refl _).append _).append _).append _
  | closingName =>
    cases h
    exact (((last _ _).append _).append _).append _
  | afterStatements =>
    cases h
    exact (last _ _).append _
  | notACondition word | primitiveName word =>
    cases h
    exact quoted (by decide) (by decide) word
  | duplicateInstruction | nestedDeeperThan => cases h

theorem contains_repeated (name : String) :
    Text.Contains (duplicateInstruction name).message s!"\"{name}\"" :=
  quoted (by decide) (by decide) name

theorem exists_found {fault : Fault} (shallow : fault.kind ≠ .nestingTooDeep)
    (new : fault.kind ≠ .duplicateInstruction) : ∃ found, fault.found? = some found := by
  cases fault with
  | duplicateInstruction => exact absurd rfl new
  | nestedDeeperThan => exact absurd rfl shallow
  | _ => exact ⟨_, rfl⟩

end Fault

theorem ParseError.display_of_span {e : ParseError} {place : Span} (span : e.span = some place) :
    e.diagnostic.display =
      s!"{e.diagnostic.kind.display}: {e.diagnostic.message} at {place.line}:{place.column}" := by
  simp [diagnostic, Diagnostic.display, span, Span.display, toString, String.append_assoc]

namespace Parser

open Statement

variable {q r : TokenQueue} {e : ParseError}

/-! ## Parsers of queues -/

def Run.error? {σ α : Type} (run : Run σ α) : Option ParseError :=
  match run.result with
  | .ok _ => none
  | .error e => some e

theorem Run.error?_eq_some {σ α : Type} {run : Run σ α} :
    run.error? = some e ↔ run.result = .error e := by
  unfold error?
  cases run.result with
  | ok a => simp
  | error fault => simp

theorem SameRun.errors {σ α : Type} {run run' : Run σ α} (same : SameRun q r run run') :
    run.error?.map (·.fault) = run'.error?.map (·.fault) := by
  have results := same.result
  unfold Run.error?
  cases result : run.result with
  | ok a =>
    cases result' : run'.result with
    | ok a' => rfl
    | error fault' => simp [result, result'] at results
  | error fault =>
    cases result' : run'.result with
    | ok a' => simp [result, result'] at results
    | error fault' => simpa [result, result'] using results

/-- The parsers that read from a queue. -/
inductive Entry where
  | program
  | declaration
  | block
  | statement
  | ifStatement
  | whileStatement

/-- The error that a parser comes to; none if the queue does not begin as the parser demands. -/
def Entry.error? (q : TokenQueue) : Entry → Option ParseError
  | program => (Parser.program (some nestingLimit) q).error?
  | declaration => (Parser.declaration (some nestingLimit) q).toOption.bind Run.error?
  | block => (Parser.block (some nestingLimit) q).error?
  | statement => (Parser.statement (some nestingLimit) q).error?
  | ifStatement => (Parser.ifStatement (some nestingLimit) q).toOption.bind Run.error?
  | whileStatement => (Parser.whileStatement (some nestingLimit) q).toOption.bind Run.error?

theorem SameRun.errors_of_begun {σ α : Type} {x y : Except Violation (Run σ α)}
    (forth : ∀ run, x = .ok run → ∃ run', y = .ok run' ∧ SameRun q r run run')
    (back : ∀ run', y = .ok run' → ∃ run, x = .ok run ∧ SameRun r q run' run) :
    (x.toOption.bind Run.error?).map (·.fault) = (y.toOption.bind Run.error?).map (·.fault) := by
  cases x with
  | ok run =>
    obtain ⟨run', rfl, same⟩ := forth run rfl
    exact same.errors
  | error violation =>
    cases y with
    | ok run' =>
      obtain ⟨run, begun, -⟩ := back run' rfl
      cases begun
    | error violation' => rfl

theorem Entry.sameErrors (same : q.texts = r.texts) (entry : Entry) :
    (entry.error? q).map (·.fault) = (entry.error? r).map (·.fault) := by
  -- For any two queues, since it is used in both directions.
  have declarations {q r : TokenQueue} (same : q.texts = r.texts) :
      ∀ run, Parser.declaration (some nestingLimit) q = .ok run →
        ∃ run', Parser.declaration (some nestingLimit) r = .ok run' ∧ SameRun q r run run' := by
    intro run h
    obtain ⟨run', h', runs, -⟩ := declaration_sameRun same h
    exact ⟨run', h', runs⟩
  cases entry with
  | program => exact (program_sameRun _ same).errors
  | block => exact (block_sameRun _ same).errors
  | statement => exact (statement_sameRun _ same).errors
  | declaration => exact SameRun.errors_of_begun (declarations same) (declarations same.symm)
  | ifStatement =>
    exact SameRun.errors_of_begun (fun _ => ifStatement_sameRun same)
      (fun _ => ifStatement_sameRun same.symm)
  | whileStatement =>
    exact SameRun.errors_of_begun (fun _ => whileStatement_sameRun same)
      (fun _ => whileStatement_sameRun same.symm)

/-! ## Tokens that errors are about -/

theorem mem_of_mem_dequeue {t : Token} (mem : t ∈ q.dequeue.2.toList) : t ∈ q.toList := by
  cases ended : q.atEnd with
  | true => rwa [TokenQueue.dequeue_of_atEnd ended] at mem
  | false =>
    rw [TokenQueue.toList_dequeue ended]
    exact List.mem_cons_of_mem _ mem

theorem Run.pointsAt {σ α : Type} {m : Machine σ α} (finds : m.FindsAt e) {s : σ}
    (failed : (m.run s q).error? = some e) : ∃ t ∈ q.toList, PointsAt t e :=
  finds.pointsAt (error?_eq_some.mp failed)

/-- Errors point at tokens, unless a program repeats a name. -/
theorem Entry.pointsAt {entry : Entry} (failed : entry.error? q = some e) :
    (∃ t ∈ q.toList, PointsAt t e) ∨
      (Parser.program (some nestingLimit) q).result = .error e ∧
        e.fault.kind = .duplicateInstruction := by
  cases entry with
  | program =>
    by_cases repeats : e.fault.kind = .duplicateInstruction
    · exact .inr ⟨Run.error?_eq_some.mp failed, repeats⟩
    · exact .inl (Run.pointsAt (program_findsAt repeats) failed)
  | block => exact .inl (Run.pointsAt (block_findsAt e) failed)
  | statement => exact .inl (Run.pointsAt (statement_findsAt e) failed)
  | declaration =>
    simp only [error?, Parser.declaration] at failed
    split at failed
    · obtain ⟨t, mem, points⟩ := Run.pointsAt (declaration_findsAt e) failed
      exact .inl ⟨t, mem_of_mem_dequeue mem, points⟩
    · cases failed
  | ifStatement =>
    simp only [error?, Parser.ifStatement] at failed
    split at failed
    · exact .inl (Run.pointsAt (statement_findsAt e) failed)
    · cases failed
  | whileStatement =>
    simp only [error?, Parser.whileStatement] at failed
    split at failed
    · exact .inl (Run.pointsAt (statement_findsAt e) failed)
    · cases failed

/-- The error is about this token of the queue. -/
structure IsAbout (q : TokenQueue) (e : ParseError) (i : Nat) (t : Token) : Prop where
  token : q.toList[i]? = some t
  span : e.span = t.span
  quoted : e.fault.kind ≠ .nestingTooDeep → e.fault.kind ≠ .duplicateInstruction →
    Text.Contains e.fault.message (if t.isEnd then "end of input" else s!"\"{t.text}\"")
  repeated : e.fault.kind = .duplicateInstruction → ∃ name declarations last next,
    RepeatsName q name declarations last ∧ i = (headWords name declarations).length ∧
      t.text = Keyword.instruction.text ∧ q.toList[i + 1]? = some next ∧
      Text.Contains e.fault.message s!"\"{next.text}\""

theorem PointsAt.isAbout {t : Token} (points : PointsAt t e) (mem : t ∈ q.toList) :
    ∃ i, IsAbout q e i t := by
  obtain ⟨i, there⟩ := List.mem_iff_getElem?.mp mem
  refine ⟨i, there, points.span, fun shallow new => ?_, fun old => absurd old points.notRepeated⟩
  obtain ⟨found, shows⟩ := Fault.exists_found shallow new
  have contains := Fault.contains_found shows
  rw [points.shown found shows, Parser.found] at contains
  cases ended : t.isEnd with
  | true => simpa only [ended, if_true, Found.display] using contains
  | false => simpa only [ended, Bool.false_eq_true, if_false, Found.display] using contains

theorem isAbout_of_repeated (refused : (Parser.program (some nestingLimit) q).result = .error e)
    (kind : e.fault.kind = .duplicateInstruction) : ∃ i t, IsAbout q e i t := by
  obtain ⟨name, declarations, last, r, begins⟩ := repetition_of_refused refused kind
  obtain ⟨head, opening, inside, left, split, headTexts, lastTexts, same, -⟩ :=
    refused_of_repetition r begins
  rw [refused] at same
  cases same
  -- The words of a declaration are its INSTRUCTION, its name and what follows them.
  simp only [declarationWords, List.map_cons, List.cons_append, List.nil_append,
    List.cons.injEq] at lastTexts
  obtain ⟨isInstruction, behind⟩ := lastTexts
  obtain ⟨next, rest, rfl, isName, -⟩ := List.map_eq_cons_iff.mp behind
  have length : head.length = (headWords name declarations).length := by simp [← headTexts]
  refine ⟨head.length, opening, by simp [split], rfl, fun _ new => absurd kind new, fun _ => ?_⟩
  refine ⟨name, declarations, last, next, repeatsName_iff.mpr ⟨r, begins⟩, length, isInstruction,
    by simp [split], ?_⟩
  rw [isName]
  exact Fault.contains_repeated last.1

theorem Entry.isAbout {entry : Entry} (failed : entry.error? q = some e) :
    ∃ i t, IsAbout q e i t := by
  rcases Entry.pointsAt failed with ⟨t, mem, points⟩ | ⟨refused, repeats⟩
  · obtain ⟨i, about⟩ := points.isAbout mem
    exact ⟨i, t, about⟩
  · exact isAbout_of_repeated refused repeats

theorem span_of_ofTexts {words : List String} {t : Token}
    (mem : t ∈ (TokenQueue.ofTexts words).toList) : t.span = none := by
  simp only [TokenQueue.toList, TokenQueue.ofTexts, TokenQueue.closing, List.mem_append,
    List.mem_map, List.mem_singleton] at mem
  rcases mem with ⟨word, -, rfl⟩ | rfl <;> rfl

/-! ## Texts -/

variable {text : String}

/-- The error is what a text is refused with, by a parser or by a procedure that comes back. -/
inductive RefusesText (text : String) (e : ParseError) : Prop
  | program (failed : Program.parse text = .error e)
  | statements (failed : Statement.parse text = .error e)
  | entry (entry : Entry) (failed : entry.error? (tokenize text) = some e)
  | programProcedure {fuel : Nat} (enough : text.length < fuel)
      (failed : (Descent.ofText (Descent.program fuel) fuel text).result? = some (.error e))
  | blockProcedure {fuel : Nat} (enough : text.length < fuel)
      (failed : (Descent.ofText (Descent.wholeBlock fuel) fuel text).result? = some (.error e))

theorem isAbout_of_program (failed : Program.parse text = .error e) :
    ∃ i t, IsAbout (tokenize text) e i t := by
  have refused : Entry.program.error? (tokenize text) = some e := Run.error?_eq_some.mpr failed
  exact Entry.isAbout refused

theorem isAbout_of_statements (failed : Statement.parse text = .error e) :
    ∃ i t, IsAbout (tokenize text) e i t := by
  obtain ⟨t, mem, points⟩ := statements_pointsAt failed
  obtain ⟨i, about⟩ := points.isAbout mem
  exact ⟨i, t, about⟩

theorem RefusesText.isAbout (refused : RefusesText text e) :
    ∃ i t, IsAbout (tokenize text) e i t := by
  cases refused with
  | program failed => exact isAbout_of_program failed
  | statements failed => exact isAbout_of_statements failed
  | entry _ failed => exact Entry.isAbout failed
  | programProcedure enough failed =>
    rw [Descent.program_ofText enough] at failed
    exact isAbout_of_program (Option.some.inj failed)
  | blockProcedure enough failed =>
    rw [Descent.wholeBlock_ofText enough] at failed
    exact isAbout_of_statements (Option.some.inj failed)

/-- What a text is refused with is about a token of the text, stands where it stands and quotes it. What
words without places are refused with stands nowhere, and is what any text of these words is refused
with. -/
theorem errors_point_at_tokens :
    (∀ text e, RefusesText text e → ∃ i t place, IsAbout (tokenize text) e i t ∧
      t.span = some place ∧ e.diagnostic.span = some place ∧
      e.diagnostic.display =
        s!"{e.diagnostic.kind.display}: {e.diagnostic.message} at {place.line}:{place.column}") ∧
    (∀ (entry : Entry) (words : List String),
      (∀ e, entry.error? (.ofTexts words) = some e → e.diagnostic.span = none) ∧
      ∀ text, (tokenize text).texts = (TokenQueue.ofTexts words).texts →
        (entry.error? (tokenize text)).map (fun e => (e.diagnostic.kind, e.diagnostic.message)) =
          (entry.error? (.ofTexts words)).map
            (fun e => (e.diagnostic.kind, e.diagnostic.message))) ∧
    ∀ text e, (Program.parse text = .error e ↔ Entry.program.error? (tokenize text) = some e) ∧
      (Entry.block.error? (tokenize text) = some e → Statement.parse text = .error e) := by
  refine ⟨fun text e refused => ?_, fun entry words => ⟨fun e failed => ?_, fun text same => ?_⟩,
    fun text e => ⟨Run.error?_eq_some.symm, fun failed => ?_⟩⟩
  · obtain ⟨i, t, about⟩ := refused.isAbout
    obtain ⟨place, stands⟩ := span_of_mem_tokenize (List.mem_of_getElem? about.token)
    have span := about.span.trans stands
    exact ⟨i, t, place, about, stands, span, ParseError.display_of_span span⟩
  · obtain ⟨i, t, about⟩ := Entry.isAbout failed
    exact about.span.trans (span_of_ofTexts (List.mem_of_getElem? about.token))
  · have faults := congrArg (Option.map fun f : Fault => (f.kind, f.message))
      (entry.sameErrors same)
    rw [Option.map_map, Option.map_map] at faults
    exact faults
  · have refused : (block (some nestingLimit) (tokenize text)).result = .error e :=
      Run.error?_eq_some.mp failed
    simp only [Statement.parse, statements, refused]

/-- A closing name on the second line, and the same words at no place. -/
theorem errors_point_at_tokens_second_line :
    (∃ i t, IsAbout (tokenize "PROGRAM p IS BEGIN\n END q")
      ⟨.closingName .program "p" (.word "q"), some ⟨2, 6, 24⟩⟩ i t) ∧
    (ParseError.mk (.closingName .program "p" (.word "q")) (some ⟨2, 6, 24⟩)).diagnostic.display =
      "name mismatch: program ending name \"q\" must match beginning name \"p\" at 2:6" ∧
    (Entry.program.error? (.ofTexts ["PROGRAM", "p", "IS", "BEGIN", "END", "q"])).map
        (fun e => (e.diagnostic.kind, e.diagnostic.message)) =
      some (.nameMismatch, "program ending name \"q\" must match beginning name \"p\"") := by
  have failed : Program.parse "PROGRAM p IS BEGIN\n END q" =
      .error ⟨.closingName .program "p" (.word "q"), some ⟨2, 6, 24⟩⟩ := by rfl
  obtain ⟨texts, queues, parsers⟩ := errors_point_at_tokens
  obtain ⟨i, t, place, about, -, span, display⟩ := texts _ _ (.program failed)
  cases span
  refine ⟨⟨i, t, about⟩, display.trans (by decide +kernel), ?_⟩
  have same := (queues .program ["PROGRAM", "p", "IS", "BEGIN", "END", "q"]).2
    "PROGRAM p IS BEGIN\n END q" (by decide +kernel)
  rw [(parsers _ _).1.mp failed] at same
  exact same.symm.trans (by decide +kernel)

end Parser

end RobotLang
