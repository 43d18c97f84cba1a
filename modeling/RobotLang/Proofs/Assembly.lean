import RobotLang.Program
import RobotLang.Proofs.Shape

/-!
Operations keep shapes. Each operation on statements gives well shaped statements when it is given
some, and each operation on programs keeps them well formed.
-/

namespace RobotLang

theorem ok_of_bind {α β : Type} {first : Except Violation α} {next : α → Except Violation β} {b : β}
    (h : first >>= next = .ok b) : ∃ a, first = .ok a ∧ next a = .ok b := by
  cases first with
  | error violation => cases h
  | ok a => exact ⟨a, rfl, h⟩

namespace Statement

variable {s t block : Statement} {position : Nat} {c : Condition}

theorem wellShaped_empty : empty.WellShaped := wellShaped_block.mpr (by simp)

theorem kind_of_demandKind {kind : Kind} (h : demandKind kind s = .ok ()) : s.kind = kind := by
  unfold demandKind at h
  split at h
  · assumption
  · cases h

theorem kind_of_demandBlock {argument : String} (h : demandBlock argument s = .ok ()) :
    s.kind = .block := by
  unfold demandBlock at h
  split at h
  · assumption
  · cases h

theorem assemble_ok {label : Label} {children : List Statement}
    (h : assemble label children = .ok t) :
    t = .node label children := by
  unfold assemble at h
  split at h <;> cases h
  rfl

/-! ## Blocks -/

theorem insert_ok (h : block.insert position s = .ok t) :
    block.kind = .block ∧ s.kind ≠ .block ∧ position ≤ block.children.length ∧
      t = .block (block.children.insertIdx position s) := by
  unfold insert at h
  obtain ⟨_, isBlock, h⟩ := ok_of_bind h
  have isBlock := kind_of_demandKind isBlock
  by_cases nested : s.kind = .block
  · simp only [nested, if_true] at h
    cases h
  · have label : block.label = .block := by rw [eq_block_of_kind isBlock]; rfl
    by_cases inside : position ≤ block.children.length
    · simp only [nested, inside, if_false, if_true, parts] at h
      exact ⟨isBlock, nested, inside, by rw [assemble_ok h, label]; rfl⟩
    · simp only [nested, inside, if_false, parts] at h
      cases h

theorem remove_ok (h : block.remove position = .ok (s, t)) :
    block.kind = .block ∧ block.children[position]? = some s ∧
      t = .block (block.children.eraseIdx position) := by
  unfold remove at h
  obtain ⟨_, isBlock, h⟩ := ok_of_bind h
  have isBlock := kind_of_demandKind isBlock
  simp only [parts] at h
  split at h
  · rename_i removed located
    obtain ⟨remaining, assembled, h⟩ := ok_of_bind h
    cases h
    have label : block.label = .block := by rw [eq_block_of_kind isBlock]; rfl
    exact ⟨isBlock, located, by rw [assemble_ok assembled, label]; rfl⟩
  · cases h

theorem wellShaped_insert (shaped : block.WellShaped) (inserted : s.WellShaped)
    (h : block.insert position s = .ok t) : t.WellShaped := by
  obtain ⟨isBlock, notBlock, inside, rfl⟩ := insert_ok h
  rw [eq_block_of_kind isBlock, wellShaped_block] at shaped
  refine wellShaped_block.mpr fun child mem => ?_
  rcases (List.mem_insertIdx inside).mp mem with rfl | mem
  · exact ⟨notBlock, inserted⟩
  · exact shaped child mem

theorem wellShaped_remove (shaped : block.WellShaped) (h : block.remove position = .ok (s, t)) :
    s.WellShaped ∧ t.WellShaped := by
  obtain ⟨isBlock, located, rfl⟩ := remove_ok h
  refine ⟨shaped.child (List.mem_of_getElem? located), ?_⟩
  rw [eq_block_of_kind isBlock, wellShaped_block] at shaped
  exact wellShaped_block.mpr fun child mem => shaped child (List.mem_of_mem_eraseIdx mem)

/-! ## The other kinds -/

theorem wellShaped_assembleIf (shaped : block.WellShaped) (h : assembleIf c block = .ok t) :
    t.WellShaped := by
  obtain ⟨_, -, h⟩ := ok_of_bind h
  exact wellShaped_of_assemble h (by simpa using shaped)

theorem wellShaped_assembleIfElse {yes no : Statement} (shapedYes : yes.WellShaped)
    (shapedNo : no.WellShaped) (h : assembleIfElse c yes no = .ok t) : t.WellShaped := by
  obtain ⟨_, -, h⟩ := ok_of_bind h
  obtain ⟨_, -, h⟩ := ok_of_bind h
  exact wellShaped_of_assemble h (by simpa using ⟨shapedYes, shapedNo⟩)

theorem wellShaped_assembleWhile (shaped : block.WellShaped) (h : assembleWhile c block = .ok t) :
    t.WellShaped := by
  obtain ⟨_, -, h⟩ := ok_of_bind h
  exact wellShaped_of_assemble h (by simpa using shaped)

theorem wellShaped_assembleCall {instruction : String} (h : assembleCall instruction = .ok t) :
    t.WellShaped := by
  unfold assembleCall at h
  split at h
  · exact wellShaped_of_assemble h (by simp)
  · cases h

theorem partsOfIf_ok (h : s.partsOfIf = .ok (c, block)) : s = .node (.ifThen c) [block] := by
  cases s with
  | node label children =>
    unfold partsOfIf at h
    split at h <;> cases h
    rename_i taken
    cases taken
    rfl

theorem partsOfIfElse_ok {yes no : Statement} (h : s.partsOfIfElse = .ok (c, yes, no)) :
    s = .node (.ifElse c) [yes, no] := by
  cases s with
  | node label children =>
    unfold partsOfIfElse at h
    split at h <;> cases h
    rename_i taken
    cases taken
    rfl

theorem partsOfWhile_ok (h : s.partsOfWhile = .ok (c, block)) :
    s = .node (.whileDo c) [block] := by
  cases s with
  | node label children =>
    unfold partsOfWhile at h
    split at h <;> cases h
    rename_i taken
    cases taken
    rfl

end Statement

/-! ## Programs -/

namespace Program

variable {p q : Program}

theorem wellFormed_unnamed : unnamed.WellFormed :=
  ⟨by decide +kernel, by simp [unnamed, Context.empty], by simp [unnamed, Context.empty],
    rfl, Statement.wellShaped_empty⟩

theorem wellFormed_setName {name : String} (formed : p.WellFormed)
    (h : p.setName name = .ok q) : q.WellFormed := by
  unfold setName at h
  split at h <;> cases h
  rename_i named
  exact { formed with name := named }

theorem checkEntry_ok_iff {entry : String × Statement} :
    checkEntry entry = .ok () ↔ isInstructionName entry.1 = true ∧ entry.2.kind = .block := by
  unfold checkEntry
  split
  · rename_i unnamed
    exact iff_of_false nofun fun h => by simp [h.1] at unnamed
  split
  · rename_i notBlock
    exact iff_of_false nofun fun h => notBlock h.2
  · rename_i named isBlock
    exact iff_of_true rfl ⟨by simpa using named, by simpa using isBlock⟩

theorem checked_iff {entries : List (String × Statement)} :
    entries.forM checkEntry = .ok () ↔
      ∀ entry ∈ entries, isInstructionName entry.1 = true ∧ entry.2.kind = .block := by
  induction entries with
  | nil => exact iff_of_true rfl (by simp)
  | cons entry rest ih =>
    rw [List.forall_mem_cons, ← checkEntry_ok_iff, ← ih]
    constructor
    · intro h
      obtain ⟨_, first, after⟩ := ok_of_bind h
      exact ⟨first, after⟩
    · rintro ⟨first, after⟩
      simp only [List.forM, first]
      exact after

theorem wellFormed_replaceContext {context old : Context} (formed : p.WellFormed)
    (shaped : ∀ entry ∈ context.entries, entry.2.WellShaped)
    (h : p.replaceContext context = .ok (old, q)) : q.WellFormed := by
  obtain ⟨_, checked, h⟩ := ok_of_bind h
  cases h
  have entries := checked_iff.mp checked
  exact ⟨formed.name, fun entry mem => (entries entry mem).1,
    fun entry mem => ⟨(entries entry mem).2, shaped entry mem⟩, formed.body⟩

theorem wellFormed_replaceBody {body old : Statement} (formed : p.WellFormed)
    (shaped : body.WellShaped) (h : p.replaceBody body = .ok (old, q)) : q.WellFormed := by
  obtain ⟨_, isBlock, h⟩ := ok_of_bind h
  cases h
  exact { formed with body := ⟨Statement.kind_of_demandBlock isBlock, shaped⟩ }

end Program

end RobotLang
