import RobotLang.Proofs.BlockWords
import RobotLang.Proofs.Machine

/-!
What a state inside a block has read. From the open statements, the statements of the innermost
block and what is due next the words that were read can be told (`BlockState.consumed`), and all
statements in a state have the right shape and lie no deeper than the limit allows
(`BlockState.Sound`). Each word that is taken keeps this and adds itself to what was read
(`Sound.step`).
-/

namespace RobotLang.Parser

open Statement

variable {limit : Option Nat} {level : Nat}

/-! ## Statements within a limit -/

/-- A statement that may stand in a block inside so many others. -/
def ItemAt (limit : Option Nat) (level : Nat) (s : Statement) : Prop :=
  s.Item ∧ Allows limit (level + s.depth)

/-- A block that may stand inside so many others. -/
def BlockAt (limit : Option Nat) (level : Nat) (s : Statement) : Prop :=
  ∃ body, s = .block body ∧ Body body ∧ Allows limit (level + depthAll body)

theorem blockAt_of_items {done : List Statement} (room : Allows limit level)
    (items : ∀ s ∈ done, ItemAt limit level s) : BlockAt limit level (.block done.reverse) := by
  refine ⟨_, rfl, body_of_items _ fun s mem => (items s (by simpa using mem)).1, ?_⟩
  intro n mem
  have fits : depthAll done.reverse ≤ n - level := by
    refine depthAll_le_iff.mpr fun s hs => ?_
    have := (items s (by simpa using hs)).2 n mem
    omega
  have := room n mem
  omega

theorem blockAt_iff {s : Statement} :
    BlockAt limit level s ↔ s.kind = .block ∧ s.WellShaped ∧ Allows limit (level + s.depth) := by
  constructor
  · rintro ⟨body, rfl, shaped, fits⟩
    exact ⟨rfl, wellShaped_block_iff.mpr shaped, fits⟩
  · rintro ⟨isBlock, shaped, fits⟩
    rw [eq_block_of_kind isBlock] at shaped fits ⊢
    exact ⟨_, rfl, wellShaped_block_iff.mp shaped, fits⟩

theorem BlockAt.unlimited {s : Statement} (h : BlockAt limit level s) : BlockAt none level s := by
  obtain ⟨body, rfl, shaped, -⟩ := h
  exact ⟨body, rfl, shaped, allows_none _⟩

theorem blockAt_some_iff {n : Nat} {s : Statement} :
    BlockAt (some n) 0 s ↔ s.kind = .block ∧ s.WellShaped ∧ s.depth ≤ n := by
  rw [blockAt_iff, allows_some, Nat.zero_add]

theorem blockAt_none_iff {s : Statement} :
    BlockAt none level s ↔ s.kind = .block ∧ s.WellShaped := by
  simp only [blockAt_iff, allows_none, and_true]

theorem BlockAt.allows {s : Statement} (h : BlockAt limit 0 s) : Allows limit s.depth := by
  obtain ⟨_, _, fits⟩ := blockAt_iff.mp h
  rwa [Nat.zero_add] at fits

theorem itemAt_of_body {s : Statement} (shaped : Body [s]) (fits : Allows limit (level + s.depth)) :
    ItemAt limit level s := ⟨shaped.item s List.mem_cons_self, fits⟩

theorem itemAt_call {instruction : String} (named : isIdentifier instruction = true)
    (room : Allows limit level) : ItemAt limit level (.call instruction) :=
  itemAt_of_body (.call named .nil) (by simpa using room)

/-! ## What has been read -/

/-- The words of a statement up to the block that is being read. -/
def Part.consumed (c : Condition) : Part → List String
  | thenBlock => [Keyword.if.text, c.spelling, Keyword.then.text]
  | elseBlock yes =>
    [Keyword.if.text, c.spelling, Keyword.then.text] ++ yes.words ++ [Keyword.else.text]
  | whileBlock => [Keyword.while.text, c.spelling, Keyword.do.text]

/-- The words that the open statements have taken, the innermost one being the first. -/
def framesConsumed : List Frame → List String
  | [] => []
  | f :: frames => framesConsumed frames ++ wordsAll f.before.reverse ++ f.part.consumed f.condition

/-- The words of the statement that is being opened or closed. -/
def Point.consumed : Point → List String
  | statement => []
  | condition construct => [construct.keyword.text]
  | opening construct c => [construct.keyword.text, c.spelling]
  | closing _ finished => finished.words.dropLast

/-- The words that a state has taken. -/
def BlockState.consumed (s : BlockState) : List String :=
  framesConsumed s.frames ++ wordsAll s.done.reverse ++ s.point.consumed

def Part.Sound (limit : Option Nat) (level : Nat) : Part → Prop
  | elseBlock yes => BlockAt limit level yes
  | _ => True

def FramesSound (limit : Option Nat) : List Frame → Prop
  | [] => True
  | f :: frames =>
    (∀ s ∈ f.before, ItemAt limit frames.length s) ∧ f.part.Sound limit (frames.length + 1) ∧
      FramesSound limit frames

/-- A statement that lacks its last word lacks the keyword that is due. -/
def Point.Sound (limit : Option Nat) (level : Nat) : Point → Prop
  | closing construct finished =>
    ItemAt limit level finished ∧
      finished.words = finished.words.dropLast ++ [construct.keyword.text]
  | _ => True

/-- All statements that a state holds may stand where they stand. -/
structure BlockState.Sound (limit : Option Nat) (s : BlockState) : Prop where
  frames : FramesSound limit s.frames
  done : ∀ item ∈ s.done, ItemAt limit s.frames.length item
  point : s.point.Sound limit s.frames.length

theorem Part.words_close (c : Condition) (part : Part) (body : List Statement)
    (sound : part.Sound limit level) :
    (part.close c (.block body)).words =
      part.consumed c ++ wordsAll body ++ [Keyword.end.text, part.construct.keyword.text] := by
  cases part with
  | thenBlock => simp [close, consumed, construct, Construct.keyword]
  | elseBlock yes =>
    obtain ⟨_, rfl, -, -⟩ := sound
    simp [close, consumed, construct, Construct.keyword]
  | whileBlock => simp [close, consumed, construct, Construct.keyword]

theorem Part.itemAt_close (c : Condition) {part : Part} {block : Statement}
    (inside : BlockAt limit (level + 1) block) (sound : part.Sound limit (level + 1)) :
    ItemAt limit level (part.close c block) := by
  obtain ⟨body, rfl, shaped, fits⟩ := inside
  cases part with
  | thenBlock =>
    exact itemAt_of_body (.ifThen shaped .nil) (by simpa [close, Nat.add_assoc] using fits)
  | elseBlock yes =>
    obtain ⟨first, rfl, firstShaped, firstFits⟩ := sound
    refine itemAt_of_body (.ifElse firstShaped shaped .nil) ?_
    rw [close, depth_ifElse, ← Nat.add_assoc, ← Nat.add_max_add_left, allows_max]
    exact ⟨firstFits, fits⟩
  | whileBlock =>
    exact itemAt_of_body (.whileDo shaped .nil) (by simpa [close, Nat.add_assoc] using fits)

namespace BlockState

theorem sound_start : start.Sound limit := ⟨trivial, by simp [start], trivial⟩

theorem allows_of_exceeded? {s : BlockState} (h : s.exceeded? limit = none) :
    Allows limit s.frames.length := by
  intro n mem
  cases mem
  simpa [exceeded?, Option.filter] using h

/-! ## One word -/

theorem Sound.readEnd {s next : BlockState} (sound : s.Sound limit)
    (room : Allows limit s.frames.length) (h : s.readEnd = .shift next) :
    next.Sound limit ∧
      next.consumed = framesConsumed s.frames ++ wordsAll s.done.reverse ++ [Keyword.end.text] := by
  obtain ⟨frames, done, point⟩ := s
  obtain ⟨framesSound, doneSound, -⟩ := sound
  cases frames with
  | nil => cases h
  | cons f frames =>
    cases h
    obtain ⟨beforeSound, partSound, framesSound⟩ := framesSound
    have block := blockAt_of_items room doneSound
    have words := f.part.words_close f.condition done.reverse partSound
    have finished := Part.itemAt_close f.condition block partSound
    constructor
    · refine ⟨framesSound, beforeSound, finished, ?_⟩
      simp [BlockState.block, words]
    · simp [consumed, Point.consumed, framesConsumed, BlockState.block, words]

theorem Sound.readElse {s next : BlockState} (sound : s.Sound limit)
    (room : Allows limit s.frames.length) (h : s.readElse = .shift next) :
    next.Sound limit ∧
      next.consumed = framesConsumed s.frames ++ wordsAll s.done.reverse ++ [Keyword.else.text] := by
  obtain ⟨frames, done, point⟩ := s
  obtain ⟨framesSound, doneSound, -⟩ := sound
  cases frames with
  | nil => cases h
  | cons f frames =>
    obtain ⟨before, c, part⟩ := f
    cases part with
    | thenBlock =>
      cases h
      obtain ⟨beforeSound, -, framesSound⟩ := framesSound
      have block := blockAt_of_items room doneSound
      constructor
      · exact ⟨⟨beforeSound, block, framesSound⟩, by simp, trivial⟩
      · simp [consumed, Point.consumed, framesConsumed, BlockState.block, Part.consumed, wordsAll]
    | elseBlock yes => cases h
    | whileBlock => cases h

theorem Sound.readStatement {s next : BlockState} {word : String} (sound : s.Sound limit)
    (due : s.point = .statement) (room : Allows limit s.frames.length)
    (h : s.readStatement word = .shift next) :
    next.Sound limit ∧
      next.consumed = framesConsumed s.frames ++ wordsAll s.done.reverse ++ [word] := by
  unfold BlockState.readStatement at h
  split at h
  · rename_i isIf
    cases h
    exact ⟨⟨sound.frames, sound.done, trivial⟩, by simp [consumed, Point.consumed, isIf,
      Construct.keyword]⟩
  split at h
  · rename_i isWhile
    cases h
    exact ⟨⟨sound.frames, sound.done, trivial⟩, by simp [consumed, Point.consumed, isWhile,
      Construct.keyword]⟩
  split at h
  · rename_i isEnd
    rw [isEnd]
    exact sound.readEnd room h
  split at h
  · rename_i isElse
    rw [isElse]
    exact sound.readElse room h
  split at h
  · rename_i named
    cases h
    constructor
    · exact ⟨sound.frames, List.forall_mem_cons.mpr ⟨itemAt_call named room, sound.done⟩,
        sound.point⟩
    · simp [consumed, Point.consumed, wordsAll, due]
  · cases h

theorem Sound.step {s next : BlockState} {word : String} (sound : s.Sound limit)
    (h : s.step limit word = .shift next) :
    next.Sound limit ∧ next.consumed = s.consumed ++ [word] := by
  obtain ⟨frames, done, point⟩ := s
  cases point with
  | statement =>
    simp only [BlockState.step] at h
    split at h
    · cases h
    · rename_i room
      simpa [consumed, Point.consumed] using sound.readStatement rfl (allows_of_exceeded? room) h
  | condition construct =>
    simp only [BlockState.step] at h
    split at h
    · rename_i c spelled
      cases h
      rw [Condition.ofSpelling?_eq_some_iff] at spelled
      exact ⟨⟨sound.frames, sound.done, trivial⟩, by simp [consumed, Point.consumed, spelled]⟩
    · cases h
  | opening construct c =>
    simp only [BlockState.step] at h
    split at h
    · rename_i spelled
      cases h
      cases construct <;>
        exact ⟨⟨⟨sound.done, trivial, sound.frames⟩, by simp, trivial⟩, by
          simp [consumed, Point.consumed, framesConsumed, Part.consumed, wordsAll, spelled,
            Construct.keyword, KeywordPlace.keyword]⟩
    · cases h
  | closing construct finished =>
    simp only [BlockState.step] at h
    split at h
    · rename_i spelled
      cases h
      -- The statement is there since its END; only now all of its words have been read.
      obtain ⟨item, words⟩ := sound.point
      constructor
      · exact ⟨sound.frames, List.forall_mem_cons.mpr ⟨item, sound.done⟩, trivial⟩
      · rw [spelled]
        simp only [consumed, Point.consumed, KeywordPlace.keyword, List.reverse_cons,
          wordsAll_append, List.append_assoc, ← words, wordsAll, List.append_nil]
    · cases h

theorem sound_of_moves {s : BlockState} {ts : List Token} (words : ∀ t ∈ ts, t.isEnd = false)
    (moved : (blockMachine limit).moves start ts = .shift s) :
    s.Sound limit ∧ s.consumed = ts.map (·.text) := by
  refine Machine.moves_invariant (fun s ws => s.Sound limit ∧ s.consumed = ws) []
    ⟨sound_start, rfl⟩ ?_ words moved
  rintro s _ t next ⟨sound, rfl⟩ _ h
  simp only [blockMachine] at h
  split at h <;> cases h
  rename_i shifted
  exact sound.step shifted

theorem step_close {s : BlockState} {word : String} (h : s.step limit word = .close) :
    s.frames = [] ∧ s.point = .statement ∧
      (word = Keyword.end.text ∨ word = Keyword.else.text) := by
  obtain ⟨frames, done, point⟩ := s
  cases point with
  | statement =>
    simp only [step] at h
    split at h
    · cases h
    · unfold BlockState.readStatement at h
      split at h
      · cases h
      split at h
      · cases h
      split at h
      · rename_i isEnd
        cases frames with
        | nil => exact ⟨rfl, rfl, .inl isEnd⟩
        | cons f frames => cases h
      split at h
      · rename_i isElse
        cases frames with
        | nil => exact ⟨rfl, rfl, .inr isElse⟩
        | cons f frames =>
          obtain ⟨before, c, part⟩ := f
          cases part <;> cases h
      split at h <;> cases h
  | condition construct =>
    simp only [step] at h
    split at h <;> cases h
  | opening construct c =>
    simp only [step] at h
    split at h <;> cases h
  | closing construct finished =>
    simp only [step] at h
    split at h <;> cases h

theorem endFault?_eq_none_iff {s : BlockState} :
    s.endFault? limit = none ↔ s.frames = [] ∧ s.point = .statement := by
  obtain ⟨frames, done, point⟩ := s
  cases point with
  | statement =>
    cases frames with
    | nil =>
      have room : Allows limit ([] : List Frame).length := allows_zero limit
      simp [endFault?, exceeded?_of_allows room]
    | cons f frames =>
      simp only [endFault?]
      split <;> simp_all
  | condition construct => simp [endFault?]
  | opening construct c => simp [endFault?]
  | closing construct finished => simp [endFault?]

/-! ## Complete blocks -/

theorem Sound.blockAt {s : BlockState} (sound : s.Sound limit) (outermost : s.frames = []) :
    BlockAt limit 0 s.block := by
  have items := sound.done
  rw [outermost] at items
  exact blockAt_of_items (allows_zero limit) items

theorem consumed_of_complete {s : BlockState} (outermost : s.frames = [])
    (complete : s.point = .statement) : s.consumed = s.block.words := by
  simp [consumed, outermost, complete, framesConsumed, Point.consumed, BlockState.block]

end BlockState

end RobotLang.Parser
