import RobotLang.Statement.Shape

/-!
The shape of statement trees, said in three ways. `WellShaped` checks the label of every level,
`FollowsTable` is one row of the shape table in words, demanded of every descendant
(`wellShaped_iff_descendants`), and `Body` builds the statements of a block from the front, one
constructor for each kind (`wellShaped_block_iff`). Inductions over trees are inductions on `Body`.
-/

namespace RobotLang.Statement

/-! ## The shape table -/

/-- One row of the shape table. -/
def FollowsTable : Statement → Prop
  | node .block children => ∀ child ∈ children, child.kind ≠ .block
  | node (.ifThen _) children => ∃ block, children = [block] ∧ block.kind = .block
  | node (.ifElse _) children =>
    ∃ yes no, children = [yes, no] ∧ yes.kind = .block ∧ no.kind = .block
  | node (.whileDo _) children => ∃ block, children = [block] ∧ block.kind = .block
  | node (.call instruction) children => children = [] ∧ isIdentifier instruction = true

theorem kinds_eq_singleton {children : List Statement} :
    children.map kind = [.block] ↔ ∃ block, children = [block] ∧ block.kind = .block := by
  rw [List.map_eq_singleton_iff]

theorem kinds_eq_pair {children : List Statement} :
    children.map kind = [.block, .block] ↔
      ∃ yes no, children = [yes, no] ∧ yes.kind = .block ∧ no.kind = .block := by
  constructor
  · intro h
    obtain ⟨yes, rest, rfl, yesBlock, h⟩ := List.map_eq_cons_iff.mp h
    obtain ⟨no, rfl, noBlock⟩ := kinds_eq_singleton.mp h
    exact ⟨yes, no, rfl, yesBlock, noBlock⟩
  · rintro ⟨yes, no, rfl, yesBlock, noBlock⟩
    simp [yesBlock, noBlock]

theorem accepts_iff {label : Label} {children : List Statement} :
    label.accepts (children.map kind) = true ↔ (node label children).FollowsTable := by
  cases label with
  | block => simp [Label.accepts, FollowsTable]
  | ifThen c => simp only [Label.accepts, FollowsTable, decide_eq_true_eq, kinds_eq_singleton]
  | ifElse c => simp only [Label.accepts, FollowsTable, decide_eq_true_eq, kinds_eq_pair]
  | whileDo c => simp only [Label.accepts, FollowsTable, decide_eq_true_eq, kinds_eq_singleton]
  | call instruction => simp [Label.accepts, FollowsTable]

theorem wellShaped_node {label : Label} {children : List Statement} :
    (node label children).WellShaped ↔
      (node label children).FollowsTable ∧ ∀ child ∈ children, child.WellShaped := by
  rw [WellShaped, accepts_iff, allWellShaped_iff]

theorem WellShaped.row {s : Statement} (shaped : s.WellShaped) : s.FollowsTable := by
  cases s with
  | node label children => exact (wellShaped_node.mp shaped).1

theorem WellShaped.child {s child : Statement} (shaped : s.WellShaped) (mem : child ∈ s.children) :
    child.WellShaped := by
  cases s with
  | node label children => exact (wellShaped_node.mp shaped).2 child mem

theorem WellShaped.descendant {s t : Statement} {path : List Nat} (shaped : s.WellShaped)
    (h : s.descendant? path = some t) : t.WellShaped := by
  induction path generalizing s with
  | nil =>
    cases h
    exact shaped
  | cons i path ih =>
    obtain ⟨child, located, h⟩ := Option.bind_eq_some_iff.mp h
    exact ih (shaped.child (List.mem_of_getElem? located)) h

theorem wellShaped_of_descendants : ∀ (s : Statement),
    (∀ path t, s.descendant? path = some t → t.FollowsTable) → s.WellShaped
  | node label children, h => by
    refine wellShaped_node.mpr ⟨h [] _ rfl, fun child mem => wellShaped_of_descendants child ?_⟩
    intro path t located
    obtain ⟨i, bound, rfl⟩ := List.getElem_of_mem mem
    refine h (i :: path) t ?_
    simpa [descendant?, Statement.children, bound] using located

theorem wellShaped_iff_descendants {s : Statement} :
    s.WellShaped ↔ ∀ path t, s.descendant? path = some t → t.FollowsTable := by
  refine ⟨fun shaped path t h => ?_, wellShaped_of_descendants s⟩
  exact (shaped.descendant h).row

/-! ## The statements of a block -/

/-- Statements that may stand in a block. -/
def Item (s : Statement) : Prop := s.kind ≠ .block ∧ s.WellShaped

theorem wellShaped_block {body : List Statement} :
    (block body).WellShaped ↔ ∀ s ∈ body, s.Item := by
  rw [block, wellShaped_node, FollowsTable]
  exact ⟨fun h s mem => ⟨h.1 s mem, h.2 s mem⟩, fun h => ⟨fun s mem => (h s mem).1,
    fun s mem => (h s mem).2⟩⟩

theorem eq_block_of_kind {s : Statement} (h : s.kind = .block) : s = block s.children := by
  cases s with
  | node label children => cases label <;> first | rfl | cases h

/-- The statements of a block, from the front. -/
inductive Body : List Statement → Prop
  | nil : Body []
  | call {instruction : String} {rest : List Statement} (named : isIdentifier instruction = true)
      (after : Body rest) : Body (.call instruction :: rest)
  | ifThen {c : Condition} {body rest : List Statement} (inside : Body body) (after : Body rest) :
      Body (.node (.ifThen c) [block body] :: rest)
  | ifElse {c : Condition} {yes no rest : List Statement} (insideYes : Body yes)
      (insideNo : Body no) (after : Body rest) :
      Body (.node (.ifElse c) [block yes, block no] :: rest)
  | whileDo {c : Condition} {body rest : List Statement} (inside : Body body) (after : Body rest) :
      Body (.node (.whileDo c) [block body] :: rest)

theorem Body.item {body : List Statement} (h : Body body) : ∀ s ∈ body, s.Item := by
  induction h with
  | nil => simp
  | call named _ ih =>
    refine List.forall_mem_cons.mpr ⟨⟨by simp [Statement.call, kind, label, Label.kind], ?_⟩, ih⟩
    exact wellShaped_node.mpr ⟨⟨rfl, named⟩, by simp⟩
  | ifThen _ _ inside ih =>
    refine List.forall_mem_cons.mpr ⟨⟨by simp [kind, label, Label.kind], ?_⟩, ih⟩
    exact wellShaped_node.mpr ⟨⟨_, rfl, rfl⟩, by simpa using wellShaped_block.mpr inside⟩
  | ifElse _ _ _ insideYes insideNo ih =>
    refine List.forall_mem_cons.mpr ⟨⟨by simp [kind, label, Label.kind], ?_⟩, ih⟩
    refine wellShaped_node.mpr ⟨⟨_, _, rfl, rfl, rfl⟩, ?_⟩
    simpa using ⟨wellShaped_block.mpr insideYes, wellShaped_block.mpr insideNo⟩
  | whileDo _ _ inside ih =>
    refine List.forall_mem_cons.mpr ⟨⟨by simp [kind, label, Label.kind], ?_⟩, ih⟩
    exact wellShaped_node.mpr ⟨⟨_, rfl, rfl⟩, by simpa using wellShaped_block.mpr inside⟩

theorem body_of_items : ∀ (body : List Statement), (∀ s ∈ body, s.Item) → Body body
  | [], _ => .nil
  | node label children :: rest, h => by
    obtain ⟨⟨notBlock, shaped⟩, after⟩ := List.forall_mem_cons.mp h
    obtain ⟨row, below⟩ := wellShaped_node.mp shaped
    have after := body_of_items rest after
    cases label with
    | block => exact absurd rfl notBlock
    | call instruction =>
      obtain ⟨rfl, named⟩ := row
      exact .call named after
    | ifThen c =>
      obtain ⟨⟨_, body⟩, rfl, isBlock⟩ := row
      cases eq_block_of_kind isBlock
      exact .ifThen (body_of_items body (wellShaped_block.mp (below _ List.mem_cons_self))) after
    | ifElse c =>
      obtain ⟨⟨_, yes⟩, ⟨_, no⟩, rfl, yesBlock, noBlock⟩ := row
      cases eq_block_of_kind yesBlock
      cases eq_block_of_kind noBlock
      have insideYes := wellShaped_block.mp (below _ List.mem_cons_self)
      have insideNo := wellShaped_block.mp (below _ (List.mem_cons_of_mem _ List.mem_cons_self))
      exact .ifElse (body_of_items yes insideYes) (body_of_items no insideNo) after
    | whileDo c =>
      obtain ⟨⟨_, body⟩, rfl, isBlock⟩ := row
      cases eq_block_of_kind isBlock
      exact .whileDo (body_of_items body (wellShaped_block.mp (below _ List.mem_cons_self))) after

theorem wellShaped_block_iff {body : List Statement} : (block body).WellShaped ↔ Body body := by
  rw [wellShaped_block]
  exact ⟨body_of_items body, Body.item⟩

end RobotLang.Statement
