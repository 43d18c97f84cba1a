import RobotLang.Proofs.ParsedTrees

/-!
What the nesting limit does. A parser with a limit does the same as the parser without one until a
block starts inside more IF and WHILE statements than the limit allows, and there it stops
(`Machine.Limits`): each token keeps the run within the limit or starts such a block. So runs that
start no such block are the same with and without the limit, and all others end where the first one
starts (`Machine.Limits.run_exact`). Main statement: `nesting_limit_exact`.
-/

namespace RobotLang.Parser

open Statement

variable {σ α : Type} {limit : Option Nat} {n depth : Nat}

/-! ## Where blocks start -/

/-- The run of a machine comes to a state, with part of the queue still to be read. -/
inductive Machine.Passes (m : Machine σ α) : σ → TokenQueue → σ → TokenQueue → Prop
  | here {s : σ} {q : TokenQueue} : Passes m s q s q
  | after {s next last : σ} {q left : TokenQueue} (goesOn : q.atEnd = false)
      (shifted : m.onWord s q.front = .shift next) (rest : Passes m next q.dequeue.2 last left) :
      Passes m s q last left

/-- Nothing has been read of the innermost block, which lies inside so many IF and WHILE statements. -/
def BlockState.Starts (depth : Nat) (b : BlockState) : Prop :=
  b.point = .statement ∧ b.done = [] ∧ b.frames.length = depth

/-- The run of a machine starts a block inside so many IF and WHILE statements, with part of the queue
still to be read. `inner` tells what has been read of the body that a state is in. -/
def Machine.StartsBlock (m : Machine σ α) (inner : σ → Option BlockState) (s : σ) (q : TokenQueue)
    (depth : Nat) (left : TokenQueue) : Prop :=
  ∃ last, m.Passes s q last left ∧ ∃ b ∈ inner last, b.Starts depth

/-- With a limit and without one, the runs are the same if no block starts too deep. Otherwise the run
with the limit ends where the first block starts too deep, and leaves the queue from there on. -/
structure ExactUpTo (n : Nat) (starts : Nat → TokenQueue → Prop) (limited unlimited : Run σ α) :
    Prop where
  shallow : (∀ depth left, starts depth left → depth ≤ n) → limited = unlimited
  deep : (∃ depth left, starts depth left ∧ n < depth) →
    ∃ depth left, starts depth left ∧ n < depth ∧
      (∀ depth' left', starts depth' left' → n < depth' → left'.toList <:+ left.toList) ∧
      limited.result = .error ⟨.nestedDeeperThan n, left.front.span⟩ ∧ limited.rest = left

theorem Machine.Passes.suffix {m : Machine σ α} {s last : σ} {q left : TokenQueue}
    (h : m.Passes s q last left) : left.toList <:+ q.toList := by
  induction h with
  | here => exact List.suffix_rfl
  | after goesOn _ _ ih =>
    rw [TokenQueue.toList_dequeue goesOn]
    exact ih.trans (List.suffix_cons _ _)

/-! ## Machines with a limit -/

/-- No block that is being read lies deeper. -/
def Within (inner : σ → Option BlockState) (n : Nat) (s : σ) : Prop :=
  ∀ b ∈ inner s, b.frames.length ≤ n

/-- A block that is being read starts deeper. -/
def Oversteps (inner : σ → Option BlockState) (n : Nat) (s : σ) : Prop :=
  ∃ b ∈ inner s, ∃ depth, b.Starts depth ∧ n < depth

/-- Within its limit a machine does what it does without one, until it starts a block that lies deeper;
and there it ends. -/
structure Machine.Limits (m : Option Nat → Machine σ α) (inner : σ → Option BlockState) (n : Nat) :
    Prop where
  word : ∀ {s}, Within inner n s → ∀ t, (m (some n)).onWord s t = (m none).onWord s t
  ending : ∀ {s}, Within inner n s → ∀ place, (m (some n)).onEnd s place = (m none).onEnd s place
  next : ∀ {s t next}, Within inner n s → (m none).onWord s t = .shift next →
    Within inner n next ∨ Oversteps inner n next
  refuses : ∀ {s}, Oversteps inner n s → ∀ t,
    (m (some n)).onWord s t = .refuse (.nestedDeeperThan n) t
  fails : ∀ {s}, Oversteps inner n s → ∀ place,
    (m (some n)).onEnd s place = .error ⟨.nestedDeeperThan n, place⟩

namespace Machine.Limits

variable {m : Option Nat → Machine σ α} {inner : σ → Option BlockState} {s next : σ}
  {q left : TokenQueue}

theorem run_of_oversteps (l : Limits m inner n) (oversteps : Oversteps inner n s) (q : TokenQueue) :
    (m (some n)).run s q = ⟨s, .error ⟨.nestedDeeperThan n, q.front.span⟩, q⟩ := by
  cases goesOn : q.atEnd with
  | true => rw [run_of_atEnd goesOn, l.fails oversteps]
  | false => exact run_of_halt goesOn (l.refuses oversteps q.front)

/-- Within the limit a block that starts too deep starts behind the next token. -/
theorem starts_behind (within : Within inner n s) (starts : (m none).StartsBlock inner s q depth left)
    (deep : n < depth) :
    ∃ next, q.atEnd = false ∧ (m none).onWord s q.front = .shift next ∧
      (m none).StartsBlock inner next q.dequeue.2 depth left := by
  obtain ⟨last, passes, b, mem, begun⟩ := starts
  cases passes with
  | here =>
    have fits := within b mem
    have same := begun.2.2
    omega
  | after goesOn shifted rest => exact ⟨_, goesOn, shifted, last, rest, b, mem, begun⟩

theorem exact_of_halt (same : (m (some n)).run s q = (m none).run s q) (within : Within inner n s)
    (halts : ∀ next, q.atEnd = false → (m none).onWord s q.front ≠ .shift next) :
    ExactUpTo n ((m none).StartsBlock inner s q) ((m (some n)).run s q) ((m none).run s q) where
  shallow _ := same
  deep := by
    rintro ⟨depth, left, starts, deep⟩
    obtain ⟨next, goesOn, shifted, -⟩ := starts_behind within starts deep
    exact absurd shifted (halts next goesOn)

theorem exact_of_within (l : Limits m inner n) (within : Within inner n s) (goesOn : q.atEnd = false)
    (shifted : (m none).onWord s q.front = .shift next)
    (rest : ExactUpTo n ((m none).StartsBlock inner next q.dequeue.2)
      ((m (some n)).run next q.dequeue.2) ((m none).run next q.dequeue.2)) :
    ExactUpTo n ((m none).StartsBlock inner s q) ((m (some n)).run s q) ((m none).run s q) := by
  have shifted' := (l.word within q.front).trans shifted
  -- What starts too deep from here on starts behind the token, and the other way round.
  have behind {depth left} (starts : (m none).StartsBlock inner s q depth left) (deep : n < depth) :
      (m none).StartsBlock inner next q.dequeue.2 depth left := by
    obtain ⟨other, -, same, starts⟩ := starts_behind within starts deep
    rw [shifted] at same
    cases same
    exact starts
  have before {depth left} (starts : (m none).StartsBlock inner next q.dequeue.2 depth left) :
      (m none).StartsBlock inner s q depth left := by
    obtain ⟨last, passes, begun⟩ := starts
    exact ⟨last, .after goesOn shifted passes, begun⟩
  rw [run_of_shift goesOn shifted, run_of_shift goesOn shifted']
  constructor
  · intro shallow
    exact rest.shallow fun depth left starts => shallow depth left (before starts)
  · rintro ⟨depth, left, starts, deep⟩
    obtain ⟨depth, left, starts, deep, first, result⟩ :=
      rest.deep ⟨depth, left, behind starts deep, deep⟩
    exact ⟨depth, left, before starts, deep,
      fun depth' left' starts' deep' => first depth' left' (behind starts' deep') deep', result⟩

theorem exact_of_oversteps (l : Limits m inner n) (within : Within inner n s)
    (goesOn : q.atEnd = false) (shifted : (m none).onWord s q.front = .shift next)
    (oversteps : Oversteps inner n next) :
    ExactUpTo n ((m none).StartsBlock inner s q) ((m (some n)).run s q) ((m none).run s q) := by
  have shifted' := (l.word within q.front).trans shifted
  obtain ⟨b, mem, depth, begun, deep⟩ := id oversteps
  have starts : (m none).StartsBlock inner s q depth q.dequeue.2 :=
    ⟨next, .after goesOn shifted .here, b, mem, begun⟩
  constructor
  · intro shallow
    exact absurd (shallow _ _ starts) (by omega)
  · intro _
    rw [run_of_shift goesOn shifted', l.run_of_oversteps oversteps]
    refine ⟨depth, _, starts, deep, fun depth' left' starts' deep' => ?_, rfl, rfl⟩
    obtain ⟨other, -, -, last, passes, -⟩ := starts_behind within starts' deep'
    exact passes.suffix

theorem run_exact (l : Limits m inner n) (within : Within inner n s) (q : TokenQueue) :
    ExactUpTo n ((m none).StartsBlock inner s q) ((m (some n)).run s q) ((m none).run s q) := by
  -- Along the tokens the run stays within the limit, up to the first step that oversteps it.
  obtain ⟨ts, place⟩ := q
  induction ts generalizing s with
  | nil =>
    have ended : (⟨[], place⟩ : TokenQueue).atEnd = true := rfl
    refine exact_of_halt ?_ within fun next goesOn => by simp [ended] at goesOn
    rw [run_of_atEnd ended, run_of_atEnd ended, l.ending within]
  | cons t ts ih =>
    cases goesOn : (⟨t :: ts, place⟩ : TokenQueue).atEnd with
    | true =>
      refine exact_of_halt ?_ within fun next other => by simp [goesOn] at other
      rw [run_of_atEnd goesOn, run_of_atEnd goesOn, l.ending within]
    | false =>
      have behind : (⟨t :: ts, place⟩ : TokenQueue).dequeue.2 = ⟨ts, place⟩ := by
        simp [TokenQueue.dequeue, goesOn]
      cases moved : (m none).onWord s t with
      | halt taken result =>
        have same := (l.word within t).trans moved
        refine exact_of_halt ?_ within fun next _ shifted => ?_
        · rw [run_of_halt goesOn moved, run_of_halt goesOn same]
        · cases moved.symm.trans shifted
      | shift next =>
        rcases l.next within moved with inside | oversteps
        · refine l.exact_of_within within goesOn moved ?_
          rw [behind]
          exact ih inside
        · exact l.exact_of_oversteps within goesOn moved oversteps

end Machine.Limits

/-! ## Blocks -/

namespace BlockState

variable {b next : BlockState} {word : String}

theorem step_of_within (fits : b.frames.length ≤ n) (word : String) :
    b.step (some n) word = b.step none word := by
  obtain ⟨frames, done, point⟩ := b
  cases point with
  | statement =>
    rw [step_statement (allows_some.mpr fits), step_statement (allows_none _)]
  | condition | opening | closing => rfl

theorem endFault?_of_within (fits : b.frames.length ≤ n) :
    b.endFault? (some n) = b.endFault? none := by
  obtain ⟨frames, done, point⟩ := b
  cases point with
  | statement =>
    simp only [endFault?, exceeded?_of_allows (allows_some.mpr fits),
      exceeded?_of_allows (allows_none _)]
  | condition | opening | closing => rfl

/-- A word that is taken opens no statement, or else a block starts behind it. -/
theorem starts_or_of_step (h : b.step limit word = .shift next) :
    next.frames.length ≤ b.frames.length ∨ next.Starts next.frames.length := by
  obtain ⟨frames, done, point⟩ := b
  cases point with
  | statement =>
    left
    simp only [step] at h
    split at h
    · cases h
    · unfold readStatement at h
      split at h
      · cases h
        exact Nat.le_refl _
      split at h
      · cases h
        exact Nat.le_refl _
      split at h
      · cases frames with
        | nil => cases h
        | cons f frames =>
          cases h
          exact Nat.le_succ _
      split at h
      · cases frames with
        | nil => cases h
        | cons f frames =>
          obtain ⟨before, c, part⟩ := f
          cases part <;> cases h
          exact Nat.le_refl _
      split at h <;> cases h
      exact Nat.le_refl _
  | condition construct =>
    simp only [step] at h
    split at h <;> cases h
    exact .inl (Nat.le_refl _)
  | opening construct c =>
    simp only [step] at h
    split at h <;> cases h
    exact .inr ⟨rfl, rfl, rfl⟩
  | closing construct finished =>
    simp only [step] at h
    split at h <;> cases h
    exact .inl (Nat.le_refl _)

theorem Starts.step_of_deep (begun : b.Starts depth) (deep : n < depth) (word : String) :
    b.step (some n) word = .refuse (.nestedDeeperThan n) := by
  obtain ⟨frames, done, point⟩ := b
  obtain ⟨rfl, rfl, rfl⟩ := begun
  exact step_exceeded (fun room => absurd (allows_some.mp room) (Nat.not_le.mpr deep)) word

theorem Starts.endFault?_of_deep (begun : b.Starts depth) (deep : n < depth) :
    b.endFault? (some n) = some (.nestedDeeperThan n) := by
  obtain ⟨frames, done, point⟩ := b
  obtain ⟨rfl, rfl, rfl⟩ := begun
  have exceeds : (⟨frames, [], .statement⟩ : BlockState).exceeded? (some n) = some n :=
    exceeded?_of_not_allows fun room => absurd (allows_some.mp room) (Nat.not_le.mpr deep)
  simp only [endFault?, exceeds]

end BlockState

theorem within_or_oversteps {inner : σ → Option BlockState} {s : σ} {b next : BlockState}
    {word : String} (held : inner s = some next) (fits : b.frames.length ≤ n)
    (shifted : b.step limit word = .shift next) : Within inner n s ∨ Oversteps inner n s := by
  simp only [Within, Oversteps, held, Option.mem_some_iff]
  by_cases deep : next.frames.length ≤ n
  · left
    rintro _ rfl
    exact deep
  · right
    rcases BlockState.starts_or_of_step shifted with inside | starts
    · omega
    · exact ⟨_, rfl, _, starts, by omega⟩

theorem block_limits (n : Nat) : Machine.Limits blockMachine some n where
  word := by
    intro s within t
    simp only [blockMachine, s.step_of_within (within s rfl)]
  ending := by
    intro s within place
    simp only [blockMachine, s.endFault?_of_within (within s rfl)]
  next := by
    intro s t next within h
    simp only [blockMachine] at h
    split at h <;> cases h
    rename_i shifted
    exact within_or_oversteps rfl (within s rfl) shifted
  refuses := by
    rintro s ⟨b, ⟨⟩, depth, begun, deep⟩ t
    simp only [blockMachine, begun.step_of_deep deep]
  fails := by
    rintro s ⟨b, ⟨⟩, depth, begun, deep⟩ place
    simp only [blockMachine, begun.endFault?_of_deep deep]

theorem statement_limits (n : Nat) : Machine.Limits statementMachine some n where
  word := by
    intro s within t
    simp only [statementMachine, s.step_of_within (within s rfl)]
  ending := by
    intro s within place
    simp only [statementMachine, s.endFault?_of_within (within s rfl)]
  next := by
    intro s t next within h
    simp only [statementMachine] at h
    split at h
    · rename_i shifted
      split at h <;> cases h
      exact within_or_oversteps rfl (within s rfl) shifted
    · cases h
    · cases h
  refuses := by
    rintro s ⟨b, ⟨⟩, depth, begun, deep⟩ t
    simp only [statementMachine, begun.step_of_deep deep]
  fails := by
    rintro s ⟨b, ⟨⟩, depth, begun, deep⟩ place
    simp only [statementMachine, begun.endFault?_of_deep deep, Option.getD_some]

/-! ## Declarations -/

namespace DeclarationState

/-- What has been read of the body. -/
def body : DeclarationState → Option BlockState
  | inBody _ b => some b
  | _ => none

end DeclarationState

theorem declaration_limits (n : Nat) : Machine.Limits declarationMachine DeclarationState.body n where
  word := by
    intro s within t
    cases s with
    | inBody name b =>
      simp only [declarationMachine, DeclarationState.read, b.step_of_within (within b rfl)]
    | naming | named | closing => rfl
  ending := by
    intro s within place
    cases s with
    | inBody name b =>
      simp only [declarationMachine, DeclarationState.endFault, b.endFault?_of_within (within b rfl)]
    | naming | named | closing => rfl
  next := by
    intro s t next within h
    cases s with
    | inBody name b =>
      simp only [declarationMachine, DeclarationState.read] at h
      split at h
      · rename_i shifted
        cases h
        exact within_or_oversteps rfl (within b rfl) shifted
      · cases h
      · split at h <;> cases h
        exact .inl (by rintro _ ⟨⟩)
    | naming =>
      simp only [declarationMachine, DeclarationState.read] at h
      split at h
      · split at h <;> cases h
        exact .inl (by rintro _ ⟨⟩)
      · cases h
    | named name =>
      simp only [declarationMachine, DeclarationState.read] at h
      split at h <;> cases h
      left
      rintro _ ⟨⟩
      exact Nat.zero_le n
    | closing name body =>
      simp only [declarationMachine, DeclarationState.read] at h
      split at h <;> cases h
  refuses := by
    rintro s ⟨b, held, depth, begun, deep⟩ t
    cases s with
    | inBody name _ =>
      cases held
      simp only [declarationMachine, DeclarationState.read, begun.step_of_deep deep]
    | naming | named | closing => cases held
  fails := by
    rintro s ⟨b, held, depth, begun, deep⟩ place
    cases s with
    | inBody name _ =>
      cases held
      simp only [declarationMachine, DeclarationState.endFault, begun.endFault?_of_deep deep,
        Option.getD_some]
    | naming | named | closing => cases held

/-! ## Programs -/

namespace ProgramState

/-- What has been read of the body that is being read, of an instruction or of the program. -/
def body : ProgramState → Option BlockState
  | inDeclaration _ _ _ d => d.body
  | inBody _ _ b => some b
  | _ => none

end ProgramState

theorem program_limits (n : Nat) : Machine.Limits programMachine ProgramState.body n where
  word := by
    intro s within t
    cases s with
    | inDeclaration name declared place d =>
      have same := (declaration_limits n).word within t
      simp only [declarationMachine] at same
      simp only [programMachine, ProgramState.read, same]
    | inBody name declared b =>
      simp only [programMachine, ProgramState.read, b.step_of_within (within b rfl)]
    | start | naming | named | declaring | closing | complete => rfl
  ending := by
    intro s within place
    cases s with
    | inDeclaration name declared begins d =>
      have same := (declaration_limits n).ending within place
      simp only [declarationMachine, Except.error.injEq, ParseError.mk.injEq, and_true] at same
      simp only [programMachine, ProgramState.finish, same]
    | inBody name declared b =>
      simp only [programMachine, ProgramState.finish, b.endFault?_of_within (within b rfl)]
    | start | naming | named | declaring | closing | complete => rfl
  next := by
    intro s t next within h
    cases s with
    | inDeclaration name declared place d =>
      simp only [programMachine, ProgramState.read] at h
      split at h
      · rename_i shifted
        cases h
        exact (declaration_limits n).next within shifted
      · cases h
      · split at h <;> cases h
        exact .inl (by rintro _ ⟨⟩)
    | inBody name declared b =>
      simp only [programMachine, ProgramState.read] at h
      split at h
      · rename_i shifted
        cases h
        exact within_or_oversteps rfl (within b rfl) shifted
      · cases h
      · split at h <;> cases h
        exact .inl (by rintro _ ⟨⟩)
    | declaring name declared =>
      simp only [programMachine, ProgramState.read] at h
      split at h
      · cases h
        exact .inl (by rintro _ ⟨⟩)
      split at h <;> cases h
      left
      rintro _ ⟨⟩
      exact Nat.zero_le n
    | start | naming | named | closing =>
      simp only [programMachine, ProgramState.read] at h
      split at h <;> cases h
      exact .inl (by rintro _ ⟨⟩)
    | complete => cases h
  refuses := by
    rintro s ⟨b, held, depth, begun, deep⟩ t
    cases s with
    | inDeclaration name declared place d =>
      have refused := (declaration_limits n).refuses ⟨b, held, depth, begun, deep⟩ t
      simp only [declarationMachine] at refused
      simp only [programMachine, ProgramState.read, refused, Move.refuse]
    | inBody name declared _ =>
      cases held
      simp only [programMachine, ProgramState.read, begun.step_of_deep deep]
    | start | naming | named | declaring | closing | complete => cases held
  fails := by
    rintro s ⟨b, held, depth, begun, deep⟩ place
    cases s with
    | inDeclaration name declared begins d =>
      have failed := (declaration_limits n).fails ⟨b, held, depth, begun, deep⟩ place
      simp only [declarationMachine, Except.error.injEq, ParseError.mk.injEq, and_true] at failed
      simp only [programMachine, ProgramState.finish, failed]
      rfl
    | inBody name declared _ =>
      cases held
      simp only [programMachine, ProgramState.finish, begun.endFault?_of_deep deep,
        Option.getD_some]
      rfl
    | start | naming | named | declaring | closing | complete => cases held

/-! ## Main statement -/

theorem depth_le_of_itemAt {s : Statement} (h : ItemAt (some n) 0 s) : s.depth ≤ n := by
  simpa [allows_some] using h.2

theorem depth_le_of_blockAt {s : Statement} (h : BlockAt (some n) 0 s) : s.depth ≤ n :=
  (blockAt_some_iff.mp h).2.2

/-- The limit changes nothing but what lies too deep. Up to the limit every parser does what it does
without one, and where the first block starts that lies deeper it ends, and leaves the queue from there
on. -/
theorem nesting_limit_exact (n : Nat) (q : TokenQueue) :
    (ExactUpTo n ((statementMachine none).StartsBlock some .start q)
        (statement (some n) q) (statement none q) ∧
      ExactUpTo n ((blockMachine none).StartsBlock some .start q)
        (block (some n) q) (block none q) ∧
      (q.front.text = Keyword.if.text → ∃ limited unlimited,
        ifStatement (some n) q = .ok limited ∧ ifStatement none q = .ok unlimited ∧
          ExactUpTo n ((statementMachine none).StartsBlock some .start q) limited unlimited) ∧
      (q.front.text = Keyword.while.text → ∃ limited unlimited,
        whileStatement (some n) q = .ok limited ∧ whileStatement none q = .ok unlimited ∧
          ExactUpTo n ((statementMachine none).StartsBlock some .start q) limited unlimited) ∧
      (q.front.text = Keyword.instruction.text → ∃ limited unlimited,
        declaration (some n) q = .ok limited ∧ declaration none q = .ok unlimited ∧
          ExactUpTo n ((declarationMachine none).StartsBlock DeclarationState.body .naming q.dequeue.2)
            limited unlimited) ∧
      ExactUpTo n ((programMachine none).StartsBlock ProgramState.body .start q)
        (program (some n) q) (program none q)) ∧
    (∀ s, (statement (some n) q).result = .ok s → s.depth ≤ n) ∧
    (∀ s, (block (some n) q).result = .ok s → s.depth ≤ n) ∧
    (∀ run s, ifStatement (some n) q = .ok run → run.result = .ok s → s.depth ≤ n) ∧
    (∀ run s, whileStatement (some n) q = .ok run → run.result = .ok s → s.depth ≤ n) ∧
    (∀ run name body, declaration (some n) q = .ok run → run.result = .ok (name, body) →
      body.depth ≤ n) ∧
    ∀ p, (program (some n) q).result = .ok p →
      p.body.depth ≤ n ∧ ∀ entry ∈ p.context.entries, entry.2.depth ≤ n := by
  have inStatement := (statement_limits n).run_exact (s := .start)
    (by rintro _ ⟨⟩; exact Nat.zero_le n) q
  refine ⟨⟨inStatement, ?_, ?_, ?_, ?_, ?_⟩, ?_, ?_, ?_, ?_, ?_, ?_⟩
  · exact (block_limits n).run_exact (by rintro _ ⟨⟩; exact Nat.zero_le n) q
  · exact fun starts => ⟨_, _, if_pos starts, if_pos starts, inStatement⟩
  · exact fun starts => ⟨_, _, if_pos starts, if_pos starts, inStatement⟩
  · exact fun starts => ⟨_, _, if_pos starts, if_pos starts,
      (declaration_limits n).run_exact (by rintro _ ⟨⟩) _⟩
  · exact (program_limits n).run_exact (by rintro _ ⟨⟩) q
  · exact fun s accepted => depth_le_of_itemAt (itemAt_of_statement accepted)
  · exact fun s accepted => depth_le_of_blockAt (blockAt_of_block accepted)
  · exact fun run s came accepted => depth_le_of_itemAt (itemAt_of_ifStatement came accepted)
  · exact fun run s came accepted => depth_le_of_itemAt (itemAt_of_whileStatement came accepted)
  · exact fun run name body came accepted =>
      depth_le_of_blockAt (declarationAt_of_declaration came accepted).2
  · exact fun p accepted => ⟨depth_le_of_blockAt (blockAt_of_program accepted),
      fun entry mem => depth_le_of_blockAt (declarationAt_of_program accepted entry mem).2⟩

/-- With room for one level a WHILE inside an IF is refused at its block, and a WHILE alone is not. -/
theorem nesting_limit_exact_levels :
    (∃ limited unlimited depth left,
      ifStatement (some 1) (.ofTexts ["IF", "random", "THEN", "WHILE", "true", "DO", "move"]) =
        .ok limited ∧
      ifStatement none (.ofTexts ["IF", "random", "THEN", "WHILE", "true", "DO", "move"]) =
        .ok unlimited ∧
      (statementMachine none).StartsBlock some .start
        (.ofTexts ["IF", "random", "THEN", "WHILE", "true", "DO", "move"]) depth left ∧
      1 < depth ∧ limited.result = .error ⟨.nestedDeeperThan 1, left.front.span⟩ ∧
      limited.rest = left) ∧
    (∃ limited unlimited, whileStatement (some 1) (.ofTexts ["WHILE"]) = .ok limited ∧
      whileStatement none (.ofTexts ["WHILE"]) = .ok unlimited ∧ limited = unlimited) ∧
    (∃ limited unlimited, declaration (some 1) (.ofTexts ["INSTRUCTION"]) = .ok limited ∧
      declaration none (.ofTexts ["INSTRUCTION"]) = .ok unlimited ∧ limited = unlimited) ∧
    (Statement.node (.ifThen .random) [.block []]).depth ≤ 1 := by
  obtain ⟨⟨-, -, inIf, -⟩, -⟩ := nesting_limit_exact 1
    (.ofTexts ["IF", "random", "THEN", "WHILE", "true", "DO", "move"])
  obtain ⟨⟨-, -, -, inWhile, -⟩, -⟩ := nesting_limit_exact 1 (.ofTexts ["WHILE"])
  obtain ⟨⟨-, -, -, -, inDeclaration, -⟩, -⟩ := nesting_limit_exact 1 (.ofTexts ["INSTRUCTION"])
  obtain ⟨-, inStatement, -⟩ := nesting_limit_exact 1
    (.ofTexts ["IF", "random", "THEN", "END", "IF"])
  refine ⟨?_, ?_, ?_, inStatement _ rfl⟩
  · obtain ⟨limited, unlimited, withLimit, without, exact⟩ := inIf rfl
    have starts : (statementMachine none).StartsBlock some .start
        (.ofTexts ["IF", "random", "THEN", "WHILE", "true", "DO", "move"]) 2
        (.ofTexts ["move"]) :=
      ⟨_, .after rfl rfl (.after rfl rfl (.after rfl rfl (.after rfl rfl (.after rfl rfl
        (.after rfl rfl .here))))), _, rfl, rfl, rfl, rfl⟩
    obtain ⟨depth, left, begun, deep, -, result, rest⟩ := exact.deep ⟨2, _, starts, by decide⟩
    exact ⟨limited, unlimited, depth, left, withLimit, without, begun, deep, result, rest⟩
  · obtain ⟨limited, unlimited, withLimit, without, exact⟩ := inWhile rfl
    refine ⟨limited, unlimited, withLimit, without, exact.shallow ?_⟩
    rintro depth left ⟨last, passes, b, ⟨⟩, begun⟩
    cases passes with
    | here => exact begun.2.2 ▸ Nat.zero_le 1
    | after _ shifted rest =>
      cases shifted
      cases rest with
      | here => cases begun.1
      | after goesOn => cases goesOn
  · obtain ⟨limited, unlimited, withLimit, without, exact⟩ := inDeclaration rfl
    refine ⟨limited, unlimited, withLimit, without, exact.shallow ?_⟩
    rintro depth left ⟨last, passes, b, mem, begun⟩
    cases passes with
    | here => cases mem
    | after goesOn => cases goesOn

end RobotLang.Parser
