import RobotLang.Proofs.BlockState

/-!
Statements that were read before. What a parser does inside a block does not depend on the statements
that stand earlier in the block: put in front of all others, they stay there, wherever the run goes
(`step_behind`, `steps_behind`). Main statement: a run behind a block that has been read is the run on
its own, with the statements of that block in front of those it comes to (`run_behind`).
-/

namespace RobotLang.Parser

open Statement

variable {limit : Option Nat} {earlier : List Statement}

/-- The statements read inside of frames, newest first. If no statement is open the earlier ones stand
in the same block. -/
def statementsBehind (earlier : List Statement) (frames : List Frame) (own : List Statement) :
    List Statement :=
  match frames with
  | [] => own ++ earlier
  | _ :: _ => own

def framesBehind (earlier : List Statement) : List Frame → List Frame
  | [] => []
  | f :: frames =>
    { f with before := statementsBehind earlier frames f.before } :: framesBehind earlier frames

theorem statementsBehind_cons (frames : List Frame) (s : Statement) (own : List Statement) :
    statementsBehind earlier frames (s :: own) = s :: statementsBehind earlier frames own := by
  cases frames <;> rfl

@[simp] theorem length_framesBehind (frames : List Frame) :
    (framesBehind earlier frames).length = frames.length := by
  induction frames with
  | nil => rfl
  | cons f frames ih => simp [framesBehind, ih]

namespace BlockState

/-- The state with the earlier statements, newest first, at the beginning of the outermost block. -/
def behind (earlier : List Statement) (s : BlockState) : BlockState :=
  ⟨framesBehind earlier s.frames, statementsBehind earlier s.frames s.done, s.point⟩

end BlockState

def BlockStep.behind (earlier : List Statement) : BlockStep → BlockStep
  | shift next => shift (next.behind earlier)
  | close => close
  | refuse fault => refuse fault

namespace BlockState

variable (limit : Option Nat) (earlier : List Statement)

theorem exceeded?_behind (s : BlockState) :
    (s.behind earlier).exceeded? limit = s.exceeded? limit := by
  simp only [exceeded?, behind, length_framesBehind]

theorem readEnd_behind (s : BlockState) :
    (s.behind earlier).readEnd = s.readEnd.behind earlier := by
  obtain ⟨_ | ⟨f, frames⟩, done, point⟩ := s <;> rfl

theorem readElse_behind (s : BlockState) :
    (s.behind earlier).readElse = s.readElse.behind earlier := by
  obtain ⟨_ | ⟨⟨before, c, part⟩, frames⟩, done, point⟩ := s
  · rfl
  · cases part <;> rfl

theorem readStatement_behind (s : BlockState) (word : String) :
    (s.behind earlier).readStatement word = (s.readStatement word).behind earlier := by
  unfold readStatement
  split
  · rfl
  split
  · rfl
  split
  · exact readEnd_behind earlier s
  split
  · exact readElse_behind earlier s
  split
  · simp only [behind, BlockStep.behind, statementsBehind_cons]
  · rfl

theorem step_behind (s : BlockState) (word : String) :
    (s.behind earlier).step limit word = (s.step limit word).behind earlier := by
  have room := exceeded?_behind limit earlier s
  have read := readStatement_behind earlier s word
  obtain ⟨frames, done, point⟩ := s
  cases point with
  | statement =>
    simp only [step, behind] at room read ⊢
    rw [room]
    split
    · rfl
    · exact read
  | condition construct =>
    simp only [step, behind]
    split <;> rfl
  | opening construct c =>
    simp only [step, behind]
    split <;> rfl
  | closing construct finished =>
    simp only [step, behind]
    split
    · simp only [behind, BlockStep.behind, statementsBehind_cons]
    · rfl

theorem steps_behind (s : BlockState) (ws : List String) :
    (s.behind earlier).steps limit ws = (s.steps limit ws).behind earlier := by
  induction ws generalizing s with
  | nil => rfl
  | cons w ws ih =>
    simp only [steps, step_behind]
    cases s.step limit w with
    | shift next => exact ih next
    | close => rfl
    | refuse fault => rfl

theorem endFault?_behind (s : BlockState) :
    (s.behind earlier).endFault? limit = s.endFault? limit := by
  have room := exceeded?_behind limit earlier s
  obtain ⟨frames, done, point⟩ := s
  cases point with
  | statement =>
    simp only [endFault?, behind] at room ⊢
    rw [room]
    cases exceeded? limit ⟨frames, done, .statement⟩ <;> cases frames <;> rfl
  | condition construct => rfl
  | opening construct c => rfl
  | closing construct finished => rfl

theorem block_behind {s : BlockState} (outermost : s.frames = []) :
    (s.behind earlier).block = .block (earlier.reverse ++ s.block.children) := by
  obtain ⟨frames, done, point⟩ := s
  cases outermost
  simp [BlockState.block, behind, statementsBehind, Statement.block, children]

end BlockState

/-! ## Runs -/

theorem block_maps_behind (limit : Option Nat) (earlier : List Statement)
    (place : Option Span → Option Span) :
    (blockMachine limit).Maps (blockMachine limit) (·.behind earlier) place
      (fun b => .block (earlier.reverse ++ b.children)) where
  word := by
    rintro s ⟨word, span⟩
    simp only [blockMachine, Token.placed, BlockState.step_behind]
    cases stepped : s.step limit word with
    | shift next => rfl
    | close =>
      obtain ⟨outermost, -⟩ := BlockState.step_close stepped
      simp only [BlockStep.behind, BlockState.block_behind earlier outermost]
      rfl
    | refuse fault => rfl
  ending := by
    intro s span
    simp only [blockMachine, BlockState.endFault?_behind]
    cases faulty : s.endFault? limit with
    | some fault => rfl
    | none =>
      obtain ⟨outermost, -⟩ := BlockState.endFault?_eq_none_iff.mp faulty
      simp only [BlockState.block_behind earlier outermost]
      rfl

/-- A block that begins with statements that have been read already. -/
theorem run_behind (limit : Option Nat) (earlier : List Statement)
    (place : Option Span → Option Span) (q : TokenQueue) :
    (blockMachine limit).run ⟨[], earlier, .statement⟩ (q.placed place) =
      (block limit q).on (·.behind earlier) place
        (fun b => .block (earlier.reverse ++ b.children)) :=
  (block_maps_behind limit earlier place).run_placed .start q

end RobotLang.Parser
