import RobotLang.Parser.Machine
import RobotLang.Violation

/-!
Procedures that work in place. A procedure reads from the front of a queue and fills in a target. It
comes back with a value or with an error, or it breaks off: because a demand that it makes is not
met, or because a loop has used up its fuel. Nothing here promises that it comes back; that it does
is shown for each procedure.
-/

namespace RobotLang

open RobotLang.Parser

/-- What a procedure works on: the queue that it reads, and the target that it fills in. -/
structure Store (τ : Type) where
  queue : TokenQueue
  target : τ
deriving DecidableEq

/-- How a procedure ends. When it comes back, with a value or with an error, it leaves something
behind; otherwise it has broken off. -/
inductive Outcome (τ α : Type) where
  | value (a : α) (after : Store τ)
  | refused (e : ParseError) (after : Store τ)
  | violated (violation : Violation)
  | noFuel
deriving DecidableEq

def Procedure (τ α : Type) : Type := Store τ → Outcome τ α

namespace Procedure

variable {σ τ α β : Type}

/-- Go on with the value of the first procedure; every other outcome is that of the whole. -/
def andThen (first : Procedure τ α) (next : α → Procedure τ β) : Procedure τ β := fun s =>
  match first s with
  | .value a after => next a after
  | .refused e after => .refused e after
  | .violated violation => .violated violation
  | .noFuel => .noFuel

instance : Monad (Procedure τ) where
  pure a := fun s => .value a s
  bind := andThen

/-! ## Steps -/

def front : Procedure τ Token := fun s => .value s.queue.front s

def dequeue : Procedure τ String := fun s =>
  .value s.queue.dequeue.1 { s with queue := s.queue.dequeue.2 }

def atEnd : Procedure τ Bool := fun s => .value s.queue.atEnd s

def refuse (e : ParseError) : Procedure τ α := fun s => .refused e s

/-- Come back with the error unless the condition holds. -/
def ensure (holds : Bool) (e : ParseError) : Procedure τ Unit :=
  if holds then pure () else refuse e

/-- The result of an operation that may come to an error. -/
def result : Except ParseError α → Procedure τ α
  | .ok a => pure a
  | .error e => refuse e

/-- The result of an operation whose demands have to be met. -/
def demanded : Except Violation α → Procedure τ α
  | .ok a => pure a
  | .error violation => fun _ => .violated violation

/-- Break off with the violation unless the condition holds. -/
def demand (holds : Bool) (violation : Violation) : Procedure τ Unit :=
  demanded (if holds then .ok () else .error violation)

def fill (t : τ) : Procedure τ Unit := fun s => .value () { s with target := t }

def outOfFuel : Procedure τ α := fun _ => .noFuel

/-- Let a procedure work on the same queue and a new target, and take that over with its value. -/
def inside (p : Procedure σ α) (new : σ) : Procedure τ (α × σ) := fun s =>
  match p ⟨s.queue, new⟩ with
  | .value a after => .value (a, after.target) { s with queue := after.queue }
  | .refused e after => .refused e { s with queue := after.queue }
  | .violated violation => .violated violation
  | .noFuel => .noFuel

/-! ## One step after the other -/

variable {p : Procedure τ α} {next : α → Procedure τ β} {s after : Store τ}

theorem bind_value {a : α} (h : p s = .value a after) : (p >>= next) s = next a after := by
  simp only [bind, andThen, h]

theorem bind_refused {e : ParseError} (h : p s = .refused e after) :
    (p >>= next) s = .refused e after := by
  simp only [bind, andThen, h]

theorem bind_violated {violation : Violation} (h : p s = .violated violation) :
    (p >>= next) s = .violated violation := by
  simp only [bind, andThen, h]

theorem front_bind {next : Token → Procedure τ β} : (front >>= next) s = next s.queue.front s := rfl

theorem dequeue_bind {next : String → Procedure τ β} :
    (dequeue >>= next) s = next s.queue.dequeue.1 { s with queue := s.queue.dequeue.2 } := rfl

theorem atEnd_bind {next : Bool → Procedure τ β} : (atEnd >>= next) s = next s.queue.atEnd s := rfl

theorem demanded_bind {a : α} : (demanded (.ok a) >>= next) s = next a s := rfl

theorem ensure_bind {holds : Bool} {e : ParseError} {next : Unit → Procedure τ β} :
    (ensure holds e >>= next) s = if holds then next () s else .refused e s := by
  cases holds <;> rfl

theorem demand_bind {holds : Bool} {violation : Violation} {next : Unit → Procedure τ β} :
    (demand holds violation >>= next) s = if holds then next () s else .violated violation := by
  cases holds <;> rfl

theorem inside_value {p : Procedure σ α} {new : σ} {q : TokenQueue} {target : τ} {a : α}
    {after : Store σ} (h : p ⟨q, new⟩ = .value a after) :
    inside p new ⟨q, target⟩ = .value (a, after.target) ⟨after.queue, target⟩ := by
  simp only [inside, h]

theorem inside_refused {p : Procedure σ α} {new : σ} {q : TokenQueue} {target : τ} {e : ParseError}
    {after : Store σ} (h : p ⟨q, new⟩ = .refused e after) :
    (inside p new : Procedure τ (α × σ)) ⟨q, target⟩ = .refused e ⟨after.queue, target⟩ := by
  simp only [inside, h]

end Procedure

end RobotLang
