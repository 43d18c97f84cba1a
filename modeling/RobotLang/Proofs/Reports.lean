import RobotLang.Proofs.DescentRun
import RobotLang.Proofs.Logging

/-!
What the parts of a program write to the log. Statements are read in silence. Whatever is refused in
them, and however deep, the error that comes back has been written once and no other one has been made
(`quiet_block`). A declaration that is read to its end writes its name, and what follows the
declarations writes the program, if there is nothing to refuse (`reports_instruction`,
`reports_mainPart`).
-/

namespace RobotLang

open RobotLang.Parser

namespace Logged

variable {σ τ α β : Type}

/-! ## One step after the other -/

section

variable {l : Logged τ α} {next : α → Logged τ β} {s after : Store τ} {log : List Event}

theorem bind_value {a : α} (h : l s = (.value a after, log)) :
    (l >>= next) s = ((next a after).1, log ++ (next a after).2) := by
  simp only [bind, andThen, h]

theorem bind_refused {e : ParseError} (h : l s = (.refused e after, log)) :
    (l >>= next) s = (.refused e after, log) := by
  simp only [bind, andThen, h]

theorem front_bind {next : Token → Logged τ β} {s : Store τ} :
    (silent Procedure.front >>= next) s = next s.queue.front s := rfl

theorem dequeue_bind {next : String → Logged τ β} {s : Store τ} :
    (silent Procedure.dequeue >>= next) s =
      next s.queue.dequeue.1 { s with queue := s.queue.dequeue.2 } := rfl

theorem ensure_bind {holds : Bool} {fault : Fault} {span : Option Span} {next : Unit → Logged τ β}
    {s : Store τ} :
    (ensure holds (newError fault span) >>= next) s =
      if holds then next () s else (.refused ⟨fault, span⟩ s, [.fault ⟨fault, span⟩]) := by
  cases holds <;> rfl

end

/-! ## Reports -/

/-- The logged procedure ends as the other one does. With a value it has written what is said of that
value, and with an error it has written this error and nothing else. -/
structure Reports (told : α → List Event) (l : Logged τ α) (p : Procedure τ α) : Prop where
  ends : ∀ s, (l s).1 = p s
  value : ∀ {s a after}, p s = .value a after → (l s).2 = told a
  refused : ∀ {s e after}, p s = .refused e after → (l s).2 = [.fault e]

/-- The procedure writes errors and nothing else. -/
abbrev Quiet (l : Logged τ α) (p : Procedure τ α) : Prop := Reports (fun _ => []) l p

variable {told : α → List Event} {told' : β → List Event} {l : Logged τ α} {p : Procedure τ α}
  {next : α → Logged τ β} {next' : α → Procedure τ β}

theorem Reports.eq_value (h : Reports told l p) {s after : Store τ} {a : α}
    (came : p s = .value a after) : l s = (.value a after, told a) :=
  Prod.ext ((h.ends s).trans came) (h.value came)

theorem Reports.eq_refused (h : Reports told l p) {s after : Store τ} {e : ParseError}
    (came : p s = .refused e after) : l s = (.refused e after, [.fault e]) :=
  Prod.ext ((h.ends s).trans came) (h.refused came)

theorem Reports.bind (first : Quiet l p) (rest : ∀ a, Reports told' (next a) (next' a)) :
    Reports told' (l >>= next) (p >>= next') := by
  constructor
  · intro s
    have ends := first.ends s
    simp only [Bind.bind, andThen, Procedure.andThen]
    generalize l s = came at ends
    rw [← ends]
    obtain ⟨outcome, log⟩ := came
    cases outcome with
    | value a after => exact (rest a).ends after
    | refused | violated | noFuel => rfl
  · intro s b last h
    cases came : p s with
    | value a after =>
      rw [Procedure.bind_value came] at h
      rw [bind_value (first.eq_value came), (rest a).value h]
      rfl
    | refused | violated | noFuel => simp [Bind.bind, Procedure.andThen, came] at h
  · intro s e last h
    cases came : p s with
    | value a after =>
      rw [Procedure.bind_value came] at h
      rw [bind_value (first.eq_value came), (rest a).refused h]
      rfl
    | refused e' after =>
      rw [Procedure.bind_refused came] at h
      cases h
      rw [bind_refused (first.eq_refused came)]
    | violated | noFuel => simp [Bind.bind, Procedure.andThen, came] at h

theorem Reports.of_calm (calm : ∀ s e after, p s ≠ .refused e after) : Quiet (silent p) p :=
  ⟨fun _ => rfl, fun _ => rfl, fun h => absurd h (calm _ _ _)⟩

theorem Reports.pure (a : α) : Quiet (pure a : Logged τ α) (pure a) :=
  ⟨fun _ => rfl, fun _ => rfl, by rintro _ _ _ ⟨⟩⟩

theorem Reports.front : Quiet (silent (Procedure.front : Procedure τ Token)) Procedure.front :=
  .of_calm (by rintro _ _ _ ⟨⟩)

theorem Reports.dequeue :
    Quiet (silent (Procedure.dequeue : Procedure τ String)) Procedure.dequeue :=
  .of_calm (by rintro _ _ _ ⟨⟩)

theorem Reports.atEnd : Quiet (silent (Procedure.atEnd : Procedure τ Bool)) Procedure.atEnd :=
  .of_calm (by rintro _ _ _ ⟨⟩)

theorem Reports.fill (t : τ) : Quiet (silent (Procedure.fill t)) (Procedure.fill t) :=
  .of_calm (by rintro _ _ _ ⟨⟩)

theorem Reports.demanded (x : Except Violation α) :
    Quiet (silent (Procedure.demanded x : Procedure τ α)) (Procedure.demanded x) := by
  cases x <;> exact .of_calm (by rintro _ _ _ ⟨⟩)

theorem Reports.demand (holds : Bool) (violation : Violation) :
    Quiet (demand holds violation : Logged τ Unit) (Procedure.demand holds violation) :=
  .demanded _

theorem Reports.outOfFuel :
    Quiet (silent (Procedure.outOfFuel : Procedure τ α)) Procedure.outOfFuel :=
  .of_calm (by rintro _ _ _ ⟨⟩)

theorem Reports.fail (fault : Fault) (span : Option Span) :
    Reports told (fail (newError fault span) : Logged τ α) (Procedure.refuse ⟨fault, span⟩) := by
  refine ⟨fun _ => rfl, by rintro _ _ _ ⟨⟩, ?_⟩
  rintro s e after ⟨⟩
  rfl

theorem Reports.ensure (holds : Bool) (fault : Fault) (span : Option Span) :
    Quiet (ensure holds (newError fault span) : Logged τ Unit)
      (Procedure.ensure holds ⟨fault, span⟩) := by
  cases holds with
  | true => exact .pure ()
  | false => exact .fail fault span

theorem Reports.inside {l : Logged σ α} {p : Procedure σ α} (h : Reports told l p) (new : σ) :
    Reports (fun a : α × σ => told a.1) (inside l new : Logged τ (α × σ))
      (Procedure.inside p new) := by
  have same : (fun inner => (l inner).1) = p := funext h.ends
  constructor
  · intro s
    simp only [Logged.inside, same]
  · intro s a after came
    cases inner : p ⟨s.queue, new⟩ with
    | value =>
      rw [Procedure.inside_value inner] at came
      cases came
      exact h.value inner
    | refused | violated | noFuel => simp [Procedure.inside, inner] at came
  · intro s e after came
    cases inner : p ⟨s.queue, new⟩ with
    | refused =>
      rw [Procedure.inside_refused inner] at came
      cases came
      exact h.refused inner
    | value | violated | noFuel => simp [Procedure.inside, inner] at came

theorem Reports.ite {c : Prop} [Decidable c] {l' : Logged τ α} {p' : Procedure τ α}
    (yes : Reports told l p) (no : Reports told l' p') :
    Reports told (if c then l else l') (if c then p else p') := by
  split
  · exact yes
  · exact no

/-- What is said of a value may be written before a step that can only come back with such a value. -/
theorem Reports.noted {event : Event} (rest : Quiet l p)
    (told_eq : ∀ {s a after}, p s = .value a after → told a = [event])
    (calm : ∀ s e after, p s ≠ .refused e after) :
    Reports told (do note event; l) p := by
  refine ⟨rest.ends, fun came => ?_, fun came => absurd came (calm _ _ _)⟩
  show [event] ++ (l _).2 = _
  rw [rest.value came, told_eq came]
  rfl

end Logged

namespace Parser

open Logged

variable {τ : Type}

/-! ## Statements -/

theorem quiet_keyword (place : KeywordPlace) :
    Quiet (Logging.keyword place : Logged τ Unit) (Descent.keyword place) :=
  .bind .front fun _ => .bind (.ensure _ _ _) fun _ => .bind .dequeue fun _ => .pure ()

theorem quiet_condition (construct : Construct) :
    Quiet (Logging.condition construct : Logged τ Condition) (Descent.condition construct) := by
  refine .bind .front fun _ => .bind (.ensure _ _ _) fun _ => .bind .dequeue fun word => ?_
  rw [Condition.parse]
  cases Condition.resolve? word with
  | some c => exact .pure c
  | none => exact .fail _ _

theorem quiet_name (named : Named) :
    Quiet (Logging.name named : Logged τ (String × Option Span)) (Descent.name named) :=
  .bind .front fun _ => .bind (.ensure _ _ _) fun _ => .bind .dequeue fun _ => .pure _

theorem quiet_closingName (named : Named) (word : String) :
    Quiet (Logging.closingName named word : Logged τ Unit) (Descent.closingName named word) :=
  .bind .front fun _ => .bind (.ensure _ _ _) fun _ => .bind .dequeue fun _ => .pure ()

theorem quiet_opening (construct : Construct) :
    Quiet (Logging.opening construct : Logged τ Condition) (Descent.opening construct) :=
  .bind .front fun _ => .bind (.demand _ _) fun _ => .bind .dequeue fun _ =>
    .bind (quiet_condition construct) fun _ => .bind (quiet_keyword _) fun _ => .pure _

theorem quiet_closing (construct : Construct) :
    Quiet (Logging.closing construct : Logged τ Unit) (Descent.closing construct) :=
  .bind (quiet_keyword _) fun _ => quiet_keyword _

theorem quiet_callStatement : Quiet (silent Descent.callStatement) Descent.callStatement := by
  refine .of_calm ?_
  rintro ⟨q, target⟩ e after came
  rw [callStatement_eq] at came
  split at came <;> cases came

section

variable {block : Logged Statement Unit} {block' : Procedure Statement Unit}
  (quiet : Quiet block block')

include quiet

theorem quiet_elseBlock :
    Quiet (Logging.elseBlock block : Logged τ (Option Statement)) (Descent.elseBlock block') :=
  .bind .front fun _ =>
    .ite (.bind .dequeue fun _ => .bind (.inside quiet _) fun _ => .pure _) (.pure _)

theorem quiet_ifStatement : Quiet (Logging.ifStatement block) (Descent.ifStatement block') :=
  .bind (quiet_opening _) fun _ => .bind (.inside quiet _) fun _ => .bind .front fun _ =>
    .bind (.ensure _ _ _) fun _ => .bind (quiet_elseBlock quiet) fun _ =>
      .bind (quiet_closing _) fun _ => .bind (.demanded _) fun _ => .fill _

theorem quiet_whileStatement : Quiet (Logging.whileStatement block) (Descent.whileStatement block') :=
  .bind (quiet_opening _) fun _ => .bind (.inside quiet _) fun _ =>
    .bind (quiet_closing _) fun _ => .bind (.demanded _) fun _ => .fill _

theorem quiet_statement : Quiet (Logging.statement block) (Descent.statement block') :=
  .bind .front fun _ => .ite (quiet_ifStatement quiet) (.ite (quiet_whileStatement quiet)
    (.ite quiet_callStatement (.fail _ _)))

theorem quiet_statements (fuel : Nat) (done : List Statement) :
    Quiet (Logging.statements block fuel done : Logged τ (List Statement))
      (Descent.statements block' fuel done) := by
  induction fuel generalizing done with
  | zero => exact .outOfFuel
  | succ fuel ih =>
    exact .bind .front fun _ => .ite (.pure _)
      (.bind (.inside (quiet_statement quiet) _) fun _ => ih _)

end

theorem quiet_block (fuel depth : Nat) :
    Quiet (Logging.block fuel depth) (Descent.block fuel depth) := by
  induction fuel generalizing depth with
  | zero => exact .outOfFuel
  | succ fuel ih =>
    exact .bind .front fun _ => .bind (.ensure _ _ _) fun _ =>
      .bind (quiet_statements (ih (depth + 1)) _ _) fun _ => .bind (.demanded _) fun _ => .fill _

theorem quiet_wholeBlock (fuel : Nat) :
    Quiet (Logging.wholeBlock fuel : Logged τ Statement) (Descent.wholeBlock fuel) :=
  .bind (.inside (quiet_block _ _) _) fun _ => .bind .front fun _ => .bind .atEnd fun _ =>
    .bind (.ensure _ _ _) fun _ => .pure _

/-! ## Declarations -/

theorem reports_instruction (fuel : Nat) :
    Reports (fun name => [.closed name]) (Logging.instruction fuel) (Descent.instruction fuel) :=
  .bind .front fun _ => .bind (.demand _ _) fun _ => .bind .dequeue fun _ =>
    .bind (quiet_name _) fun _ => .bind (.ensure _ _ _) fun _ => .bind (quiet_keyword _) fun _ =>
      .bind (quiet_block _ _) fun _ => .bind (quiet_keyword _) fun _ =>
        .bind (quiet_closingName _ _) fun _ =>
          .noted (.pure _) (by rintro _ _ _ ⟨⟩; rfl) (by rintro _ _ _ ⟨⟩)

/-! ## Programs -/

variable {word : String} {context : Context}

/-- What follows the declarations, without a log. -/
def Descent.mainPart (fuel : Nat) (word : String) (context : Context) : Procedure τ Program := do
  Descent.keyword .beforeProgramBody
  let body ← Procedure.inside (Descent.block fuel 0) .empty
  Descent.keyword .afterProgramBody
  Descent.closingName .program word
  let t ← Procedure.front
  let ended ← Procedure.atEnd
  Procedure.ensure ended ⟨.afterProgram word (found t), t.span⟩
  Descent.assembled word context body.2

/-- A program that is put together has its name and context from what it is put together of. -/
theorem assembled_cases (word : String) (context : Context) (body : Statement) (s : Store τ) :
    (∃ p, Descent.assembled word context body s = .value p s ∧ p.name = word ∧
      p.context = context) ∨
      ∃ violation, Descent.assembled word context body s = .violated violation := by
  simp only [Descent.assembled, Program.setName, Program.replaceContext, Program.replaceBody]
  cases isIdentifier word with
  | false => exact .inr ⟨_, rfl⟩
  | true =>
    cases context.entries.forM Program.checkEntry with
    | error violation => exact .inr ⟨violation, rfl⟩
    | ok =>
      cases Statement.demandBlock "b" body with
      | error violation => exact .inr ⟨violation, rfl⟩
      | ok => exact .inl ⟨_, rfl, rfl, rfl⟩

theorem reports_mainPart (fuel : Nat) (word : String) (context : Context) :
    Reports (fun p => [.parsed p.name p.context.size])
      (Logging.mainPart fuel word context : Logged τ Program)
      (Descent.mainPart fuel word context) := by
  refine .bind (quiet_keyword _) fun _ => .bind (.inside (quiet_block _ _) _) fun body =>
    .bind (quiet_keyword _) fun _ => .bind (quiet_closingName _ _) fun _ => .bind .front fun _ =>
      .bind .atEnd fun _ => .bind (.ensure _ _ _) fun _ => ?_
  have calm : ∀ (s : Store τ) e after, Descent.assembled word context body.2 s ≠ .refused e after := by
    intro s e after
    obtain ⟨p, came, -⟩ | ⟨violation, came⟩ := assembled_cases word context body.2 s <;> simp [came]
  refine .noted (.of_calm calm) (fun {s p after} came => ?_) calm
  obtain ⟨p', same, name, entries⟩ | ⟨violation, broken⟩ := assembled_cases word context body.2 s
  · rw [same] at came
    cases came
    rw [name, entries]
  · simp [broken] at came

end Parser

end RobotLang
