import RobotLang.Proofs.BlockState
import RobotLang.Proofs.Descent

/-!
The procedures for statements and blocks go on as the states of a block do. Each of them takes words
exactly as the state does that it stands for (`Reaches`), and comes back when that state has what
was to be read, or refuses a token when the state does (`Follows`). The frames of the state are the
procedures that are still open, and since every block inside a block begins behind a word that is
taken, the number of tokens bounds the fuel (`readsBlocks`).
-/

namespace RobotLang

theorem TokenQueue.dequeue_shorter {q : TokenQueue} (goesOn : q.atEnd = false) :
    q.dequeue.2.tokens.length < q.tokens.length := by
  rcases q with ⟨_ | ⟨t, ts⟩, place⟩
  · cases goesOn
  · simp [dequeue, goesOn]

theorem TokenQueue.dequeue_fst (q : TokenQueue) : q.dequeue.1 = q.front.text := by
  unfold dequeue
  split
  · rename_i ended
    exact (beq_iff_eq.mp ended).symm
  · rfl

theorem atEnd_eq_false_of_keyword {q : TokenQueue} {k : Keyword} (h : q.front.text = k.text) :
    q.atEnd = false := by
  rw [TokenQueue.atEnd, Token.isEnd_eq_false, h]
  exact k.text_ne_endOfInput

namespace Parser

open Procedure

/-! ## States that go on -/

/-- What is wrong with a token, for a state that refuses it. -/
def BlockState.refusal? (s : BlockState) (t : Token) : Option Fault :=
  if t.isEnd then s.endFault? (some nestingLimit)
  else match s.step (some nestingLimit) t.text with
    | .refuse fault => some fault
    | _ => none

/-- From the first state and queue on, words are taken up to the second ones, all of them in states
of some kind. -/
inductive Reaches (via : BlockState → Prop) :
    BlockState → TokenQueue → BlockState → TokenQueue → Prop
  | refl (s : BlockState) (q : TokenQueue) : Reaches via s q s q
  | step {s next last : BlockState} {q left : TokenQueue} (isVia : via s) (goesOn : q.atEnd = false)
      (shifted : s.step (some nestingLimit) q.front.text = .shift next)
      (after : Reaches via next q.dequeue.2 last left) : Reaches via s q last left

variable {via : BlockState → Prop} {s next last : BlockState} {q between left : TokenQueue}

theorem Reaches.trans (first : Reaches via s q next between)
    (second : Reaches via next between last left) : Reaches via s q last left := by
  induction first with
  | refl => exact second
  | step isVia goesOn shifted _ ih => exact .step isVia goesOn shifted (ih second)

theorem Reaches.length_le (h : Reaches via s q next left) :
    left.tokens.length ≤ q.tokens.length := by
  induction h with
  | refl => exact Nat.le_refl _
  | step _ goesOn _ _ ih => exact Nat.le_trans ih (Nat.le_of_lt (TokenQueue.dequeue_shorter goesOn))

theorem Reaches.shorter (h : Reaches via s q next left) (moved : s ≠ next) :
    left.tokens.length < q.tokens.length := by
  cases h with
  | refl => exact absurd rfl moved
  | step _ goesOn _ after =>
    exact Nat.lt_of_le_of_lt after.length_le (TokenQueue.dequeue_shorter goesOn)

/-! ## Procedures that follow a state -/

variable {σ τ α β : Type} {target : τ}

/-- The outcome is what the state comes to on the queue: either the procedure has come back, and
what it has read, the target, the state and the queue are as they are demanded, or the state has
refused a token, and the target is the old one. -/
inductive Follows (via : BlockState → Prop) (s : BlockState) (q : TokenQueue) (target : τ)
    (post : α → τ → BlockState → TokenQueue → Prop) : Outcome τ α → Prop
  | value {a : α} {new : τ} {next : BlockState} {left : TokenQueue}
      (reached : Reaches via s q next left) (demanded : post a new next left) :
      Follows via s q target post (.value a ⟨left, new⟩)
  | refused {next : BlockState} {left : TokenQueue} {fault : Fault}
      (reached : Reaches via s q next left) (isVia : via next)
      (refuses : next.refusal? left.front = some fault) :
      Follows via s q target post (.refused ⟨fault, left.front.span⟩ ⟨left, target⟩)

/-- The target is the old one, and the rest as demanded. -/
def Keeping (target : τ) (post : α → BlockState → TokenQueue → Prop) :
    α → τ → BlockState → TokenQueue → Prop :=
  fun a new next left => new = target ∧ post a next left

namespace Follows

variable {post : α → τ → BlockState → TokenQueue → Prop} {outcome : Outcome τ α}

theorem after (first : Reaches via s q next left) (h : Follows via next left target post outcome) :
    Follows via s q target post outcome := by
  cases h with
  | value reached demanded => exact .value (first.trans reached) demanded
  | refused reached isVia refuses => exact .refused (first.trans reached) isVia refuses

theorem imp {post' : α → τ → BlockState → TokenQueue → Prop}
    (h : Follows via s q target post outcome)
    (weaker : ∀ a new next left, post a new next left → post' a new next left) :
    Follows via s q target post' outcome := by
  cases h with
  | value reached demanded => exact .value reached (weaker _ _ _ _ demanded)
  | refused reached isVia refuses => exact .refused reached isVia refuses

theorem bind {p : Procedure τ β} {k : β → Procedure τ α}
    {mid : β → BlockState → TokenQueue → Prop}
    (first : Follows via s q target (Keeping target mid) (p ⟨q, target⟩))
    (second : ∀ b next left, Reaches via s q next left → mid b next left →
      Follows via next left target post (k b ⟨left, target⟩)) :
    Follows via s q target post ((p >>= k) ⟨q, target⟩) := by
  generalize h : p ⟨q, target⟩ = outcome at first
  cases first with
  | value reached demanded =>
    obtain ⟨rfl, demanded⟩ := demanded
    rw [bind_value h]
    exact (second _ _ _ reached demanded).after reached
  | refused reached isVia refuses =>
    rw [bind_refused h]
    exact .refused reached isVia refuses

theorem inside {p : Procedure σ β} {new : σ} {mid : β → σ → BlockState → TokenQueue → Prop}
    (h : Follows via s q new mid (p ⟨q, new⟩)) :
    Follows via s q target (Keeping target fun b => mid b.1 b.2)
      (Procedure.inside p new ⟨q, target⟩) := by
  unfold Procedure.inside
  generalize p ⟨q, new⟩ = outcome at h
  cases h with
  | value reached demanded => exact .value reached ⟨rfl, demanded⟩
  | refused reached isVia refuses => exact .refused reached isVia refuses

/-- One word is demanded and taken. -/
theorem word {holds : Bool} {fault : Fault} {k : String → Procedure τ α} (next : BlockState)
    (isVia : via s)
    (takes : holds = true → q.atEnd = false ∧
      s.step (some nestingLimit) q.front.text = .shift next)
    (refuses : holds = false → s.refusal? q.front = some fault)
    (second : holds = true →
      Follows via next q.dequeue.2 target post (k q.front.text ⟨q.dequeue.2, target⟩)) :
    Follows via s q target post
      ((do
        ensure holds ⟨fault, q.front.span⟩
        let w ← dequeue
        k w : Procedure τ α) ⟨q, target⟩) := by
  rw [ensure_bind]
  cases holds with
  | false => exact .refused (.refl s q) isVia (refuses rfl)
  | true =>
    obtain ⟨goesOn, shifted⟩ := takes rfl
    rw [if_pos rfl, dequeue_bind, TokenQueue.dequeue_fst]
    exact (second rfl).after (.step isVia goesOn shifted (.refl _ _))

end Follows

/-! ## Words that are due -/

open Descent

variable {frames : List Frame} {done : List Statement} {construct : Construct}

/-- The statement that is read is not complete. -/
def BlockState.Inside (s : BlockState) : Prop := s.frames ≠ [] ∨ s.point ≠ .statement

theorem follows_keyword {place : KeywordPlace} (isVia : via s)
    (takes : s.step (some nestingLimit) place.keyword.text = .shift next)
    (refuses : q.front.text ≠ place.keyword.text →
      s.refusal? q.front = some (.keywordDue place (found q.front))) :
    Follows via s q target (Keeping target fun _ last _ => last = next)
      (keyword place ⟨q, target⟩) := by
  refine Follows.word next isVia ?_ ?_ ?_
  · intro spelled
    rw [beq_iff_eq] at spelled
    exact ⟨atEnd_eq_false_of_keyword spelled, by rw [spelled, takes]⟩
  · intro other
    exact refuses (by simpa using other)
  · intro _
    exact .value (.refl _ _) ⟨rfl, rfl⟩

theorem follows_condition (isVia : via ⟨frames, done, .condition construct⟩) :
    Follows via ⟨frames, done, .condition construct⟩ q target
      (Keeping target fun c last _ => last = ⟨frames, done, .opening construct c⟩)
      (condition construct ⟨q, target⟩) := by
  cases known : Condition.ofSpelling? q.front.text with
  | none =>
    refine Follows.word ⟨frames, done, .condition construct⟩ isVia ?_ ?_ ?_
    · simp [isCondition, known]
    · intro _
      simp only [BlockState.refusal?, BlockState.endFault?, BlockState.step, known, found]
      split <;> rfl
    · simp [isCondition, known]
  | some c =>
    refine Follows.word ⟨frames, done, .opening construct c⟩ isVia ?_ ?_ ?_
    · intro _
      refine ⟨?_, by simp only [BlockState.step, known]⟩
      rw [TokenQueue.atEnd, Token.isEnd_eq_false, Condition.ofSpelling?_eq_some_iff.mp known]
      exact c.spelling_ne_endOfInput
    · simp [isCondition, known]
    · intro _
      -- The reader of conditions accepts more spellings than may stand in a program.
      have spelled := Condition.ofSpelling?_eq_some_iff.mp known
      have parsed : Condition.parse q.front.text = .ok c := by
        rw [spelled, Condition.parse_spelling]
      rw [parsed]
      exact .value (.refl _ _) ⟨rfl, rfl⟩

/-- The part that the block behind the condition is. -/
def Part.first : Construct → Part
  | .«if» => .thenBlock
  | .«while» => .whileBlock

theorem follows_opening (inner : ∀ s : BlockState, s.Inside → via s)
    (isVia : via ⟨frames, done, .statement⟩) (room : Allows (some nestingLimit) frames.length)
    (starts : q.front.text = construct.keyword.text) :
    Follows via ⟨frames, done, .statement⟩ q target
      (Keeping target fun c last _ =>
        last = ⟨⟨done, c, .first construct⟩ :: frames, [], .statement⟩)
      (opening construct ⟨q, target⟩) := by
  have goesOn : q.atEnd = false := atEnd_eq_false_of_keyword starts
  have shifted : (⟨frames, done, .statement⟩ : BlockState).step (some nestingLimit) q.front.text =
      .shift ⟨frames, done, .condition construct⟩ := by
    rw [BlockState.step_statement room, starts]
    cases construct <;> simp [BlockState.readStatement, Construct.keyword]
  rw [opening, front_bind, demand_bind, if_pos (by simpa using starts), dequeue_bind]
  refine Follows.after (.step isVia goesOn shifted (.refl _ _)) ?_
  refine (follows_condition (inner _ (.inr (by simp)))).bind ?_
  rintro c _ left - rfl
  have opened : (⟨frames, done, .opening construct c⟩ : BlockState).step (some nestingLimit)
      (KeywordPlace.afterCondition construct).keyword.text =
        .shift ⟨⟨done, c, .first construct⟩ :: frames, [], .statement⟩ := by
    simp only [BlockState.step, if_true]
    cases construct <;> rfl
  refine (follows_keyword (inner _ (.inr (by simp))) opened ?_).bind ?_
  · intro other
    simp only [BlockState.refusal?, BlockState.endFault?, BlockState.step, other, if_false, found]
    split <;> rfl
  · rintro _ _ _ - rfl
    exact .value (.refl _ _) ⟨rfl, rfl⟩

theorem opening_violated (other : q.front.text ≠ construct.keyword.text) :
    opening construct ⟨q, target⟩ = .violated (.frontKeyword construct.keyword) := by
  rw [opening, front_bind, demand_bind, if_neg (by simpa using other)]

theorem follows_closing {before : List Statement} {c : Condition} (part : Part)
    (inner : ∀ s : BlockState, s.Inside → via s)
    (room : Allows (some nestingLimit) (frames.length + 1))
    (ends : q.front.text ≠ Keyword.end.text →
      (⟨⟨before, c, part⟩ :: frames, done, .statement⟩ : BlockState).refusal? q.front =
        some (.keywordDue (.afterBlock part.construct) (found q.front))) :
    Follows via ⟨⟨before, c, part⟩ :: frames, done, .statement⟩ q target
      (Keeping target fun _ last _ =>
        last = ⟨frames, part.close c (.block done.reverse) :: before, .statement⟩)
      (closing part.construct ⟨q, target⟩) := by
  have shifted : (⟨⟨before, c, part⟩ :: frames, done, .statement⟩ : BlockState).step
      (some nestingLimit) Keyword.end.text =
        .shift ⟨frames, before, .closing part.construct (part.close c (.block done.reverse))⟩ := by
    rw [BlockState.step_statement room]
    simp [BlockState.readStatement, BlockState.readEnd, BlockState.block]
  refine (follows_keyword (inner _ (.inl (by simp))) shifted ends).bind ?_
  rintro _ _ _ - rfl
  refine follows_keyword (inner _ (.inr (by simp))) ?_ ?_
  · simp only [BlockState.step, if_true]
  · intro other
    simp only [BlockState.refusal?, BlockState.endFault?, BlockState.step, other, if_false, found]
    split <;> rfl

/-! ## Statements and blocks -/

/-- What a block comes to: it is the target now, and stands before a token that ends it. -/
def BlockRead (frames : List Frame) (new : Statement) (last : BlockState) (left : TokenQueue) :
    Prop :=
  ∃ body, new = .block body ∧ last = ⟨frames, body.reverse, .statement⟩ ∧
    endsBlock left.front = true ∧ Allows (some nestingLimit) frames.length

/-- The procedure reads blocks inside so many statements from queues of less than so many tokens. -/
def ReadsBlocks (p : Procedure Statement Unit) (depth size : Nat) : Prop :=
  ∀ (via : BlockState → Prop) (frames : List Frame) (q : TokenQueue) (target : Statement),
    (∀ s : BlockState, s.Inside → via s) → (∀ done, via ⟨frames, done, .statement⟩) →
    frames.length = depth → q.tokens.length < size →
      Follows via ⟨frames, [], .statement⟩ q target (fun _ new => BlockRead frames new)
        (p ⟨q, target⟩)

/-- What a statement comes to: it is the target now, and stands in the block. -/
def StatementRead (frames : List Frame) (done : List Statement) (new : Statement)
    (last : BlockState) : Prop :=
  new.kind ≠ .block ∧ last = ⟨frames, new :: done, .statement⟩

theorem ReadsBlocks.inside {p : Procedure Statement Unit} {f : Frame} {size : Nat}
    (reads : ReadsBlocks p (frames.length + 1) size) (inner : ∀ s : BlockState, s.Inside → via s)
    (short : q.tokens.length < size) :
    Follows via ⟨f :: frames, [], .statement⟩ q target
      (Keeping target fun b => BlockRead (f :: frames) b.2)
      (Procedure.inside p .empty ⟨q, target⟩) :=
  Follows.inside (reads via (f :: frames) q .empty inner
    (fun _ => inner _ (.inl (by simp))) rfl short)

/-- At a token that ends a block, all parts of an IF or WHILE but the first of an IF refuse what is
not END. -/
theorem refusal?_endsBlock {before : List Statement} {c : Condition} {part : Part} {t : Token}
    (room : Allows (some nestingLimit) (frames.length + 1)) (ends : endsBlock t = true)
    (other : t.text ≠ Keyword.end.text) (last : part ≠ .thenBlock) :
    (⟨⟨before, c, part⟩ :: frames, done, .statement⟩ : BlockState).refusal? t =
      some (.keywordDue (.afterBlock part.construct) (found t)) := by
  have exceeded : (⟨⟨before, c, part⟩ :: frames, done, .statement⟩ : BlockState).exceeded?
      (some nestingLimit) = none := BlockState.exceeded?_of_allows room
  simp only [BlockState.refusal?, BlockState.endFault?, found]
  split
  · simp only [exceeded]
    cases part with
    | thenBlock => exact absurd rfl last
    | elseBlock yes => rfl
    | whileBlock => rfl
  · rename_i notEnd
    have isElse : t.text = Keyword.else.text := by simpa [endsBlock, other, notEnd] using ends
    rw [BlockState.step_statement room, isElse]
    cases part with
    | thenBlock => exact absurd rfl last
    | elseBlock yes | whileBlock =>
      simp [BlockState.readStatement, BlockState.readElse, Part.endDue, Part.construct]

theorem assembleCall_ok {word : String} (named : isIdentifier word = true) :
    Statement.assembleCall word = .ok (.call word) := by
  simp [Statement.assembleCall, Statement.assemble, Label.accepts, named, Statement.call]

theorem follows_callStatement {target : Statement} (isVia : via ⟨frames, done, .statement⟩)
    (room : Allows (some nestingLimit) frames.length) (named : isIdentifier q.front.text = true) :
    Follows via ⟨frames, done, .statement⟩ q target
      (fun _ new last _ => StatementRead frames done new last)
      (Descent.callStatement ⟨q, target⟩) := by
  have goesOn : q.atEnd = false := by
    rw [TokenQueue.atEnd, Token.isEnd_eq_false]
    exact ne_endOfInput_of_isIdentifier named
  have shifted : (⟨frames, done, .statement⟩ : BlockState).step (some nestingLimit) q.front.text =
      .shift ⟨frames, .call q.front.text :: done, .statement⟩ := by
    rw [BlockState.step_statement room]
    simp [BlockState.readStatement, ne_keyword_of_isIdentifier named, named]
  rw [Descent.callStatement, front_bind, demand_bind, if_pos named, dequeue_bind,
    TokenQueue.dequeue_fst, assembleCall_ok named]
  refine Follows.after (.step isVia goesOn shifted (.refl _ _)) ?_
  have notBlock : (Statement.call q.front.text).kind ≠ .block := by
    simp [Statement.call, Statement.kind, Statement.label, Label.kind]
  exact .value (.refl _ _) ⟨notBlock, rfl⟩

theorem follows_whileStatement {target : Statement} {p : Procedure Statement Unit} {size : Nat}
    (reads : ReadsBlocks p (frames.length + 1) size) (short : q.tokens.length ≤ size)
    (inner : ∀ s : BlockState, s.Inside → via s) (isVia : via ⟨frames, done, .statement⟩)
    (room : Allows (some nestingLimit) frames.length)
    (starts : q.front.text = (Construct.keyword .«while»).text) :
    Follows via ⟨frames, done, .statement⟩ q target
      (fun _ new last _ => StatementRead frames done new last)
      (Descent.whileStatement p ⟨q, target⟩) := by
  refine (follows_opening inner isVia room starts).bind ?_
  rintro c _ left opened rfl
  have shorter := opened.shorter (by simp)
  refine (reads.inside inner (by omega)).bind ?_
  rintro ⟨⟨⟩, _⟩ _ left - ⟨body, rfl, rfl, ends, room⟩
  refine (follows_closing .whileBlock inner room fun other =>
    refusal?_endsBlock room ends other (by simp)).bind ?_
  rintro ⟨⟩ _ left - rfl
  exact .value (.refl _ _) ⟨by simp [Statement.kind, Statement.label, Label.kind], by
    simp [Part.close]⟩

/-- What an IF comes to before its END, with its second block or without one. -/
def BranchesRead (frames : List Frame) (before : List Statement) (c : Condition)
    (yes : List Statement) (no : Option Statement) (last : BlockState) (left : TokenQueue) : Prop :=
  match no with
  | none => last = ⟨⟨before, c, .thenBlock⟩ :: frames, yes.reverse, .statement⟩ ∧
      left.front.text = Keyword.end.text
  | some no => BlockRead (⟨before, c, .elseBlock (.block yes)⟩ :: frames) no last left

theorem follows_elseBlock {p : Procedure Statement Unit} {size : Nat} {before yes : List Statement}
    {c : Condition} (reads : ReadsBlocks p (frames.length + 1) size)
    (short : q.tokens.length ≤ size) (inner : ∀ s : BlockState, s.Inside → via s)
    (room : Allows (some nestingLimit) (frames.length + 1))
    (ends : q.front.text = Keyword.else.text ∨ q.front.text = Keyword.end.text) :
    Follows via ⟨⟨before, c, .thenBlock⟩ :: frames, yes.reverse, .statement⟩ q target
      (Keeping target (BranchesRead frames before c yes)) (elseBlock p ⟨q, target⟩) := by
  rw [elseBlock, front_bind]
  split
  · rename_i isElse
    have goesOn : q.atEnd = false := atEnd_eq_false_of_keyword isElse
    have shifted : (⟨⟨before, c, .thenBlock⟩ :: frames, yes.reverse, .statement⟩ : BlockState).step
        (some nestingLimit) q.front.text =
          .shift ⟨⟨before, c, .elseBlock (.block yes)⟩ :: frames, [], .statement⟩ := by
      rw [BlockState.step_statement room, isElse]
      simp [BlockState.readStatement, BlockState.readElse, BlockState.block]
    have shorter := TokenQueue.dequeue_shorter goesOn
    rw [dequeue_bind]
    refine Follows.after (.step (inner _ (.inl (by simp))) goesOn shifted (.refl _ _)) ?_
    refine (reads.inside inner (by omega)).bind ?_
    rintro ⟨⟨⟩, no⟩ last left - branch
    exact .value (.refl _ _) ⟨rfl, branch⟩
  · rename_i notElse
    exact .value (.refl _ _) ⟨rfl, rfl, ends.resolve_left notElse⟩

theorem follows_ifStatement {target : Statement} {p : Procedure Statement Unit} {size : Nat}
    (reads : ReadsBlocks p (frames.length + 1) size) (short : q.tokens.length ≤ size)
    (inner : ∀ s : BlockState, s.Inside → via s) (isVia : via ⟨frames, done, .statement⟩)
    (room : Allows (some nestingLimit) frames.length)
    (starts : q.front.text = (Construct.keyword .«if»).text) :
    Follows via ⟨frames, done, .statement⟩ q target
      (fun _ new last _ => StatementRead frames done new last)
      (Descent.ifStatement p ⟨q, target⟩) := by
  refine (follows_opening inner isVia room starts).bind ?_
  rintro c _ afterThen opened rfl
  have shorter := opened.shorter (by simp)
  refine (reads.inside inner (by omega)).bind ?_
  rintro ⟨⟨⟩, _⟩ _ left read ⟨yes, rfl, rfl, ends, room⟩
  have shorter := read.length_le
  rw [front_bind, ensure_bind]
  split
  · rename_i branch
    have branch : left.front.text = Keyword.else.text ∨ left.front.text = Keyword.end.text := by
      simpa using branch
    refine (follows_elseBlock reads (by omega) inner room branch).bind ?_
    rintro (_ | no) last left - branches
    · obtain ⟨rfl, isEnd⟩ := branches
      refine (follows_closing .thenBlock inner room fun other =>
        absurd isEnd other).bind ?_
      rintro ⟨⟩ _ left - rfl
      exact .value (.refl _ _) ⟨by simp [Statement.kind, Statement.label, Label.kind], by
        simp [Part.close]⟩
    · obtain ⟨no, rfl, rfl, ends, room⟩ := branches
      refine (follows_closing (.elseBlock (.block yes)) inner room fun other =>
        refusal?_endsBlock room ends other (by simp)).bind ?_
      rintro ⟨⟩ _ left - rfl
      exact .value (.refl _ _) ⟨by simp [Statement.kind, Statement.label, Label.kind], by
        simp [Part.close]⟩
  · rename_i neither
    -- The block stands before a token that ends it, and that is neither ELSE nor END.
    have isEnd : left.front.isEnd = true := by
      simp only [Bool.or_eq_true, beq_iff_eq, not_or] at neither
      simpa [endsBlock, neither] using ends
    refine .refused (.refl _ _) (inner _ (.inl (by simp))) ?_
    have exceeded : (⟨⟨done, c, .thenBlock⟩ :: frames, yes.reverse, .statement⟩ :
        BlockState).exceeded? (some nestingLimit) = none := BlockState.exceeded?_of_allows room
    simp [BlockState.refusal?, BlockState.endFault?, Part.endDue, found, isEnd, exceeded,
      Part.first]

theorem follows_statement {target : Statement} {p : Procedure Statement Unit} {size : Nat}
    (reads : ReadsBlocks p (frames.length + 1) size) (short : q.tokens.length ≤ size)
    (inner : ∀ s : BlockState, s.Inside → via s) (isVia : via ⟨frames, done, .statement⟩)
    (room : Allows (some nestingLimit) frames.length) (goesOn : endsBlock q.front = false) :
    Follows via ⟨frames, done, .statement⟩ q target
      (fun _ new last _ => StatementRead frames done new last)
      (Descent.statement p ⟨q, target⟩) := by
  rw [Descent.statement, front_bind]
  split
  · rename_i isIf
    exact follows_ifStatement reads short inner isVia room isIf
  split
  · rename_i isWhile
    exact follows_whileStatement reads short inner isVia room isWhile
  split
  · rename_i named
    exact follows_callStatement isVia room named
  · rename_i notIf notWhile notNamed
    refine .refused (.refl _ _) isVia ?_
    simp only [endsBlock, Bool.or_eq_false_iff, beq_eq_false_iff_ne] at goesOn
    obtain ⟨⟨notEnd, notElse⟩, goesOn⟩ := goesOn
    rw [BlockState.refusal?, BlockState.step_statement room]
    simp [BlockState.readStatement, found, goesOn, notIf, notWhile, notEnd, notElse, notNamed]

theorem follows_statements {p : Procedure Statement Unit} {size turns : Nat}
    (reads : ReadsBlocks p (frames.length + 1) size) (short : q.tokens.length ≤ size)
    (enough : q.tokens.length < turns) (inner : ∀ s : BlockState, s.Inside → via s)
    (isVia : ∀ done, via ⟨frames, done, .statement⟩)
    (room : Allows (some nestingLimit) frames.length) (items : ∀ s ∈ done, s.kind ≠ .block) :
    Follows via ⟨frames, done, .statement⟩ q target
      (Keeping target fun body last left => last = ⟨frames, body.reverse, .statement⟩ ∧
        (∀ s ∈ body, s.kind ≠ .block) ∧ endsBlock left.front = true)
      (Descent.statements p turns done ⟨q, target⟩) := by
  induction turns generalizing q done with
  | zero => cases enough
  | succ turns ih =>
    rw [Descent.statements, front_bind]
    split
    · rename_i ends
      refine .value (.refl _ _) ⟨rfl, by rw [List.reverse_reverse], ?_, ends⟩
      exact fun s mem => items s (List.mem_reverse.mp mem)
    · rename_i goesOn
      refine Follows.bind (follows_statement reads short inner (isVia done) room
        (by simpa using goesOn)).inside ?_
      rintro ⟨⟨⟩, new⟩ _ left read ⟨item, rfl⟩
      -- The state has one statement more, so words were taken, and the turns that are left suffice.
      have shorter := read.shorter (by simp)
      exact ih (by omega) (by omega) (List.forall_mem_cons.mpr ⟨item, items⟩)

theorem readsBlocks (fuel depth : Nat) : ReadsBlocks (Descent.block fuel depth) depth fuel := by
  induction fuel generalizing depth with
  | zero =>
    intro via frames q target inner isVia level short
    cases short
  | succ fuel ih =>
    rintro via frames q target inner isVia rfl short
    rw [Descent.block, front_bind, ensure_bind]
    split
    · rename_i room
      have room : Allows (some nestingLimit) frames.length := by simpa [allows_some] using room
      -- Blocks inside are read with less fuel, which is enough since they begin behind a word.
      refine (follows_statements (ih _) (by omega) short inner isVia room (by simp)).bind ?_
      rintro body _ left - ⟨rfl, items, ends⟩
      have assembled : Statement.assemble .block body = .ok (.block body) := by
        simpa [Statement.assemble, Label.accepts, Statement.block] using items
      rw [assembled]
      exact .value (.refl _ _) ⟨body, rfl, rfl, ends, room⟩
    · rename_i deep
      have deep : ¬ Allows (some nestingLimit) frames.length := by simpa [allows_some] using deep
      refine .refused (.refl _ _) (isVia []) ?_
      simp [BlockState.refusal?, BlockState.endFault?, BlockState.step_exceeded deep,
        BlockState.exceeded?_of_not_allows deep]

end Parser

end RobotLang
