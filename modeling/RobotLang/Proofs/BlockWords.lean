import RobotLang.Parser.Block
import RobotLang.Proofs.Words

/-!
Reading the words of a block. `BlockState.steps` reads words one after the other. Main statement:
the words of statements of the right shape are read to exactly these statements, or refused because
they are nested too deep, and which of the two is decided by their depth (`steps_wordsAll`).
-/

namespace RobotLang.Parser

open Statement

/-- The limit leaves room for blocks inside so many IF and WHILE statements. -/
def Allows (limit : Option Nat) (depth : Nat) : Prop := ∀ n ∈ limit, depth ≤ n

instance (limit : Option Nat) (depth : Nat) : Decidable (Allows limit depth) :=
  inferInstanceAs (Decidable (∀ n ∈ limit, depth ≤ n))

theorem Allows.mono {limit : Option Nat} {d e : Nat} (h : Allows limit e) (le : d ≤ e) :
    Allows limit d := fun n mem => Nat.le_trans le (h n mem)

theorem allows_max {limit : Option Nat} {d e : Nat} :
    Allows limit (max d e) ↔ Allows limit d ∧ Allows limit e := by
  simp only [Allows, Nat.max_le]
  exact ⟨fun h => ⟨fun n mem => (h n mem).1, fun n mem => (h n mem).2⟩,
    fun h n mem => ⟨h.1 n mem, h.2 n mem⟩⟩

theorem allows_none (depth : Nat) : Allows none depth := by simp [Allows]

theorem allows_zero (limit : Option Nat) : Allows limit 0 := fun n _ => Nat.zero_le n

theorem allows_some {n depth : Nat} : Allows (some n) depth ↔ depth ≤ n := by simp [Allows]

namespace BlockState

variable {limit : Option Nat} {frames : List Frame} {done : List Statement} {ws : List String}

theorem exceeded?_of_allows {point : Point} (room : Allows limit frames.length) :
    (⟨frames, done, point⟩ : BlockState).exceeded? limit = none := by
  cases limit with
  | none => rfl
  | some n =>
    have fits : ¬ n < frames.length := Nat.not_lt.mpr (allows_some.mp room)
    simp [exceeded?, Option.filter, fits]

theorem exceeded?_of_not_allows {point : Point} (deep : ¬ Allows limit frames.length) :
    (⟨frames, done, point⟩ : BlockState).exceeded? limit = some (limit.getD 0) := by
  cases limit with
  | none => exact absurd (allows_none _) deep
  | some n =>
    have exceeds : n < frames.length := Nat.not_le.mp fun le => deep (allows_some.mpr le)
    simp [exceeded?, Option.filter, exceeds]

/-- Read words, one after the other. -/
def steps (limit : Option Nat) : BlockState → List String → BlockStep
  | s, [] => .shift s
  | s, w :: ws =>
    match s.step limit w with
    | .shift next => next.steps limit ws
    | .close => .close
    | .refuse fault => .refuse fault

theorem steps_cons {s : BlockState} (next : BlockState) {w : String}
    (h : s.step limit w = .shift next) (ws : List String) :
    s.steps limit (w :: ws) = next.steps limit ws := by
  simp only [steps, h]

/-! ## The words around blocks -/

theorem step_statement (room : Allows limit frames.length) (word : String) :
    (⟨frames, done, .statement⟩ : BlockState).step limit word =
      (⟨frames, done, .statement⟩ : BlockState).readStatement word := by
  simp only [step, exceeded?_of_allows room]

theorem step_end_outermost (done : List Statement) :
    (⟨[], done, .statement⟩ : BlockState).step limit Keyword.end.text = .close := by
  have room : Allows limit ([] : List Frame).length := allows_zero limit
  rw [step_statement room]
  simp [readStatement, readEnd]

theorem step_exceeded (deep : ¬ Allows limit frames.length) (word : String) :
    (⟨frames, done, .statement⟩ : BlockState).step limit word =
      .refuse (.nestedDeeperThan (limit.getD 0)) := by
  simp only [step, exceeded?_of_not_allows deep]

theorem steps_call {instruction : String} (room : Allows limit frames.length)
    (named : isIdentifier instruction = true) (ws : List String) :
    (⟨frames, done, .statement⟩ : BlockState).steps limit (instruction :: ws) =
      (⟨frames, .call instruction :: done, .statement⟩ : BlockState).steps limit ws := by
  refine steps_cons _ ?_ ws
  rw [step_statement room]
  simp [readStatement, ne_keyword_of_isIdentifier named, named]

theorem steps_openIf (room : Allows limit frames.length) (c : Condition) (ws : List String) :
    (⟨frames, done, .statement⟩ : BlockState).steps limit
        (Keyword.if.text :: c.spelling :: Keyword.then.text :: ws) =
      (⟨⟨done, c, .thenBlock⟩ :: frames, [], .statement⟩ : BlockState).steps limit ws := by
  rw [steps_cons ⟨frames, done, .condition .«if»⟩,
    steps_cons ⟨frames, done, .opening .«if» c⟩,
    steps_cons ⟨⟨done, c, .thenBlock⟩ :: frames, [], .statement⟩]
  · simp [step, KeywordPlace.keyword]
  · simp [step, Condition.ofSpelling?_spelling]
  · simp [step_statement room, readStatement]

theorem steps_openWhile (room : Allows limit frames.length) (c : Condition) (ws : List String) :
    (⟨frames, done, .statement⟩ : BlockState).steps limit
        (Keyword.while.text :: c.spelling :: Keyword.do.text :: ws) =
      (⟨⟨done, c, .whileBlock⟩ :: frames, [], .statement⟩ : BlockState).steps limit ws := by
  rw [steps_cons ⟨frames, done, .condition .«while»⟩,
    steps_cons ⟨frames, done, .opening .«while» c⟩,
    steps_cons ⟨⟨done, c, .whileBlock⟩ :: frames, [], .statement⟩]
  · simp [step, KeywordPlace.keyword]
  · simp [step, Condition.ofSpelling?_spelling]
  · simp [step_statement room, readStatement]

theorem steps_else {before : List Statement} {c : Condition}
    (room : Allows limit (frames.length + 1)) (ws : List String) :
    (⟨⟨before, c, .thenBlock⟩ :: frames, done, .statement⟩ : BlockState).steps limit
        (Keyword.else.text :: ws) =
      (⟨⟨before, c, .elseBlock (.block done.reverse)⟩ :: frames, [], .statement⟩ :
        BlockState).steps limit ws := by
  refine steps_cons _ ?_ ws
  rw [step_statement (by simpa using room)]
  simp [readStatement, readElse, BlockState.block]

theorem steps_close {before : List Statement} (c : Condition) (part : Part)
    (done : List Statement) (room : Allows limit (frames.length + 1)) (ws : List String) :
    (⟨⟨before, c, part⟩ :: frames, done, .statement⟩ : BlockState).steps limit
        (Keyword.end.text :: part.construct.keyword.text :: ws) =
      (⟨frames, part.close c (.block done.reverse) :: before, .statement⟩ :
        BlockState).steps limit ws := by
  rw [steps_cons ⟨frames, before, .closing part.construct (part.close c (.block done.reverse))⟩,
    steps_cons ⟨frames, part.close c (.block done.reverse) :: before, .statement⟩]
  · simp [step, KeywordPlace.keyword]
  · rw [step_statement (by simpa using room)]
    simp [readStatement, readEnd, BlockState.block]

/-! ## The words of a block -/

theorem steps_exceeded (deep : ¬ Allows limit frames.length) (some : ws ≠ []) :
    (⟨frames, done, .statement⟩ : BlockState).steps limit ws =
      .refuse (.nestedDeeperThan (limit.getD 0)) := by
  cases ws with
  | nil => exact absurd rfl some
  | cons w ws => simp only [steps, step_exceeded deep]

/-- Wherever a statement may stand, this one is read, unless it is nested too deep. -/
def ReadsItem (limit : Option Nat) (item : Statement) : Prop :=
  ∀ (frames : List Frame) (done : List Statement) (ws : List String),
    Allows limit frames.length →
      (⟨frames, done, .statement⟩ : BlockState).steps limit (item.words ++ ws) =
        if Allows limit (frames.length + item.depth) then
          (⟨frames, item :: done, .statement⟩ : BlockState).steps limit ws
        else .refuse (.nestedDeeperThan (limit.getD 0))

/-- Wherever a statement may stand, these are read, unless they are nested too deep. -/
def ReadsBody (limit : Option Nat) (body : List Statement) : Prop :=
  ∀ (frames : List Frame) (done : List Statement) (ws : List String),
    Allows limit frames.length →
      (⟨frames, done, .statement⟩ : BlockState).steps limit (wordsAll body ++ ws) =
        if Allows limit (frames.length + depthAll body) then
          (⟨frames, body.reverse ++ done, .statement⟩ : BlockState).steps limit ws
        else .refuse (.nestedDeeperThan (limit.getD 0))

theorem ReadsBody.nil : ReadsBody limit [] := by
  intro frames done ws room
  simp [wordsAll, depthAll, room]

theorem ReadsBody.cons {item : Statement} {rest : List Statement} (first : ReadsItem limit item)
    (after : ReadsBody limit rest) : ReadsBody limit (item :: rest) := by
  intro frames done ws room
  rw [wordsAll, List.append_assoc, first _ _ _ room, after _ _ _ room, depthAll,
    ← Nat.add_max_add_left, List.reverse_cons, List.append_assoc, List.singleton_append]
  by_cases fits : Allows limit (frames.length + item.depth)
  · simp only [allows_max, fits, true_and, if_true]
  · simp only [allows_max, fits, false_and, if_false]

theorem ReadsBody.inside {body : List Statement} (h : ReadsBody limit body) (f : Frame)
    (word : String) (ws : List String) :
    (⟨f :: frames, [], .statement⟩ : BlockState).steps limit (wordsAll body ++ word :: ws) =
      if Allows limit (frames.length + (1 + depthAll body)) then
        (⟨f :: frames, body.reverse, .statement⟩ : BlockState).steps limit (word :: ws)
      else .refuse (.nestedDeeperThan (limit.getD 0)) := by
  rw [← Nat.add_assoc]
  by_cases room : Allows limit (f :: frames).length
  · rw [h _ _ _ room, List.append_nil, List.length_cons]
  · -- Without room a word is refused, and even behind an empty block there is one.
    have deep : ¬ Allows limit (frames.length + 1 + depthAll body) :=
      fun allowed => room (allowed.mono (Nat.le_add_right _ _))
    rw [if_neg deep, steps_exceeded room (by simp)]

theorem readsItem_call {instruction : String} (named : isIdentifier instruction = true) :
    ReadsItem limit (.call instruction) := by
  intro frames done ws room
  rw [words_call, List.singleton_append, steps_call room named, depth_call, Nat.add_zero,
    if_pos room]

theorem readsItem_ifThen {c : Condition} {body : List Statement} (h : ReadsBody limit body) :
    ReadsItem limit (.node (.ifThen c) [.block body]) := by
  intro frames done ws room
  rw [words_ifThen, depth_ifThen]
  simp only [List.append_assoc, List.cons_append, List.nil_append]
  rw [steps_openIf room, h.inside]
  by_cases fits : Allows limit (frames.length + (1 + depthAll body))
  · rw [if_pos fits, if_pos fits]
    have fits : Allows limit (frames.length + 1) := fits.mono (by omega)
    simpa [Part.close, Part.construct, Construct.keyword] using
      steps_close c .thenBlock body.reverse fits ws
  · rw [if_neg fits, if_neg fits]

theorem readsItem_whileDo {c : Condition} {body : List Statement} (h : ReadsBody limit body) :
    ReadsItem limit (.node (.whileDo c) [.block body]) := by
  intro frames done ws room
  rw [words_whileDo, depth_whileDo]
  simp only [List.append_assoc, List.cons_append, List.nil_append]
  rw [steps_openWhile room, h.inside]
  by_cases fits : Allows limit (frames.length + (1 + depthAll body))
  · rw [if_pos fits, if_pos fits]
    have fits : Allows limit (frames.length + 1) := fits.mono (by omega)
    simpa [Part.close, Part.construct, Construct.keyword] using
      steps_close c .whileBlock body.reverse fits ws
  · rw [if_neg fits, if_neg fits]

theorem readsItem_ifElse {c : Condition} {yes no : List Statement} (hYes : ReadsBody limit yes)
    (hNo : ReadsBody limit no) : ReadsItem limit (.node (.ifElse c) [.block yes, .block no]) := by
  intro frames done ws room
  rw [words_ifElse, depth_ifElse, ← Nat.add_max_add_left, ← Nat.add_max_add_left]
  simp only [List.append_assoc, List.cons_append, List.nil_append]
  rw [steps_openIf room, hYes.inside]
  by_cases fitsYes : Allows limit (frames.length + (1 + depthAll yes))
  · have fits : Allows limit (frames.length + 1) := fitsYes.mono (by omega)
    simp only [allows_max, fitsYes, true_and, if_true]
    rw [steps_else fits, hNo.inside, List.reverse_reverse]
    by_cases fitsNo : Allows limit (frames.length + (1 + depthAll no))
    · rw [if_pos fitsNo, if_pos fitsNo]
      simpa [Part.close, Part.construct, Construct.keyword] using
        steps_close c (.elseBlock (.block yes)) no.reverse fits ws
    · rw [if_neg fitsNo, if_neg fitsNo]
  · simp only [allows_max, fitsYes, false_and, if_false]

theorem readsBody (limit : Option Nat) {body : List Statement} (shaped : Body body) :
    ReadsBody limit body := by
  induction shaped with
  | nil => exact .nil
  | call named _ ih => exact .cons (readsItem_call named) ih
  | ifThen _ _ inside ih => exact .cons (readsItem_ifThen inside) ih
  | ifElse _ _ _ insideYes insideNo ih => exact .cons (readsItem_ifElse insideYes insideNo) ih
  | whileDo _ _ inside ih => exact .cons (readsItem_whileDo inside) ih

theorem steps_wordsAll (limit : Option Nat) {body : List Statement} (shaped : Body body) :
    BlockState.start.steps limit (wordsAll body) =
      if Allows limit (depthAll body) then .shift ⟨[], body.reverse, .statement⟩
      else .refuse (.nestedDeeperThan (limit.getD 0)) := by
  have h := readsBody limit shaped [] [] [] (allows_zero limit)
  simpa [steps, start] using h

end BlockState

end RobotLang.Parser
