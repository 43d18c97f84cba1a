import RobotLang.Diagnostic
import RobotLang.Token.Queue

/-!
Machines that read a token queue from the front, one token at a time.

What a machine has read so far is its state. At each token it either takes the token and goes on, or it
ends with a result, with or without taking the token. At the end of the input it has to end, so the
end token is never taken. Whatever a run does not take stays in the queue, in place (`run_rest`).
-/

namespace RobotLang.Parser

inductive Move (σ α : Type) where
  | shift (next : σ)
  /-- End with a result, and take the token or leave it. -/
  | halt (taken : Bool) (result : Except ParseError α)

/-- How to read a word, and how to end at the end of the input. -/
structure Machine (σ α : Type) where
  onWord : σ → Token → Move σ α
  onEnd : σ → Option Span → Except ParseError α

/-- A finished run: the state in which it ended, its result, and what is left to read. -/
structure Run (σ α : Type) where
  state : σ
  result : Except ParseError α
  rest : TokenQueue

/-- What a token is to somebody who expected another one. -/
def found (t : Token) : Found := if t.isEnd then .endOfInput else .word t.text

/-- The move that refuses a token and leaves it. -/
def Move.refuse {σ α : Type} (fault : Fault) (t : Token) : Move σ α :=
  .halt false (.error ⟨fault, t.span⟩)

namespace Machine

variable {σ α : Type}

/-- Run on the tokens of a queue that closes at the given place. -/
def runTokens (m : Machine σ α) (place : Option Span) : σ → List Token → Run σ α
  | s, [] => ⟨s, m.onEnd s place, ⟨[], place⟩⟩
  | s, t :: ts =>
    if t.isEnd then ⟨s, m.onEnd s t.span, ⟨t :: ts, place⟩⟩ else
    match m.onWord s t with
    | .shift next => runTokens m place next ts
    | .halt true result => ⟨s, result, ⟨ts, place⟩⟩
    | .halt false result => ⟨s, result, ⟨t :: ts, place⟩⟩

def run (m : Machine σ α) (s : σ) (q : TokenQueue) : Run σ α := m.runTokens q.endSpan s q.tokens

theorem runTokens_rest (m : Machine σ α) (place : Option Span) (s : σ) (ts : List Token) :
    (m.runTokens place s ts).rest.tokens <:+ ts ∧ (m.runTokens place s ts).rest.endSpan = place := by
  induction ts generalizing s with
  | nil => simp [runTokens]
  | cons t ts ih =>
    unfold runTokens
    split
    · simp
    · split
      · exact ⟨(ih _).1.trans (List.suffix_cons t ts), (ih _).2⟩
      · exact ⟨List.suffix_cons t ts, rfl⟩
      · simp

/-- A run leaves a queue that is the old one from some token on. -/
theorem run_rest (m : Machine σ α) (s : σ) (q : TokenQueue) : (m.run s q).rest.toList <:+ q.toList := by
  have ⟨⟨taken, h⟩, place⟩ := m.runTokens_rest q.endSpan s q.tokens
  refine ⟨taken, ?_⟩
  simp only [TokenQueue.toList, TokenQueue.closing, run, place, ← List.append_assoc, h]

end Machine

end RobotLang.Parser
