import Mathlib.Data.List.Perm.Basic
import RobotLang.Proofs.Preconditions

/-!
Blocks as lists. Statements are put into a block, taken out of it and counted in place, each time by
taking the block apart and assembling it again; that comes to what inserting into the list of its
statements, erasing from it and measuring it comes to, edit after edit (`run_performAll_iff`). So
nothing that is put into a block is lost, doubled or moved to another place among the others.

Main statement: `BlockEdit.edits_as_list`.
-/

namespace RobotLang.Edit

open Statement

inductive BlockEdit where
  | insert (position : Nat) (s : Statement)
  | remove (position : Nat)
  | length

inductive Reply where
  | done
  | removed (s : Statement)
  | count (n : Nat)

namespace BlockEdit

def operation : BlockEdit → Operation
  | insert position s => .insert position s
  | remove position => .remove position
  | length => .length

def reply : (e : BlockEdit) → e.operation.Answer → Reply
  | insert _ _, _ => .done
  | remove _, s => .removed s
  | length, n => .count n

def perform (e : BlockEdit) : Edit Reply := e.reply <$> e.operation.perform

/-- The edit of a list. There is none when its precondition does not hold. -/
def onList : BlockEdit → StateT (List Statement) Option Reply
  | insert position s, l =>
    if s.kind ≠ .block ∧ position ≤ l.length then some (.done, l.insertIdx position s) else none
  | remove position, l => l[position]?.map fun s => (.removed s, l.eraseIdx position)
  | length, l => some (.count l.length, l)

/-- The edit of a block as a whole. -/
def onWhole (e : BlockEdit) : StateT Statement (Except Violation) Reply := fun block => do
  let (answer, after) ← e.operation.outcome block
  return (e.reply answer, after)

def performAll (edits : List BlockEdit) : Edit (List Reply) := edits.mapM perform

def onListAll (edits : List BlockEdit) : StateT (List Statement) Option (List Reply) :=
  edits.mapM onList

/-- The statement that is put into the block. -/
def put? : BlockEdit → Option Statement
  | insert _ s => some s
  | remove _ | length => none

end BlockEdit

/-- The statement that has been taken out of the block. -/
def Reply.taken? : Reply → Option Statement
  | removed s => some s
  | done | count _ => none

namespace BlockEdit

variable {l l' : List Statement} {reply : Reply} {replies : List Reply}

/-! ## One edit -/

theorem children_block : (block l).children = l := rfl

/-- There is no edit of the list exactly where a demand of the operation on the block is not met. -/
theorem onList_eq_none_iff {e : BlockEdit} :
    e.onList.run l = none ↔ ∃ d ∈ e.operation.demands (block l), ¬ d.met := by
  cases e with
  | insert position s =>
    have unmet : (s.kind ≠ .block → l.length < position) ↔
        s.kind = .block ∨ l.length < position := or_iff_not_imp_left.symm
    simpa [StateT.run, onList, operation, Operation.demands, kind_block, children_block] using unmet
  | remove position =>
    simp [StateT.run, onList, operation, Operation.demands, kind_block, children_block]
  | length => simp [StateT.run, onList, operation, Operation.demands, kind_block]

theorem run_of_onList {e : BlockEdit} (row : (block l).FollowsTable)
    (h : e.onList.run l = some (reply, l')) :
    e.perform.run (block l) = .ok (reply, block l') ∧ (block l').FollowsTable := by
  rw [perform, StateT.run_map]
  cases e with
  | insert position s =>
    obtain ⟨⟨notBlock, inside⟩, ⟨⟩⟩ := Option.ite_none_right_eq_some.mp h
    simp only [operation, Operation.perform, run_insert row notBlock inside]
    exact ⟨rfl, followsTable_insertIdx row notBlock inside⟩
  | remove position =>
    obtain ⟨s, located, ⟨⟩⟩ := Option.map_eq_some_iff.mp h
    obtain ⟨inside, rfl⟩ := List.getElem?_eq_some_iff.mp located
    simp only [operation, Operation.perform, run_remove row inside]
    exact ⟨rfl, followsTable_eraseIdx row⟩
  | length =>
    cases h
    simp only [operation, Operation.perform, run_length row]
    exact ⟨rfl, row⟩

theorem fails_of_onList {e : BlockEdit} (row : (block l).FollowsTable)
    (h : e.onList.run l = none) : ∃ breach, e.perform.run (block l) = .error breach := by
  have enforced := enforces_perform e.operation row
  obtain ⟨breach, failed⟩ := enforced.fails_iff.mpr (onList_eq_none_iff.mp h)
  rw [perform, StateT.run_map, failed]
  exact ⟨breach, rfl⟩

theorem run_eq_onWhole (e : BlockEdit) {this : Statement} (row : this.FollowsTable) :
    e.perform.run this = (e.onWhole.run this).mapError .violation := by
  rw [perform, StateT.run_map, e.operation.run_perform row, StateT.run, onWhole]
  cases e.operation.outcome this <;> rfl

/-- What was there and what is put in is what is taken out and what remains. -/
theorem perm_of_onList {e : BlockEdit} (h : e.onList.run l = some (reply, l')) :
    (l ++ e.put?.toList).Perm (reply.taken?.toList ++ l') := by
  cases e with
  | insert position s =>
    obtain ⟨⟨_, inside⟩, ⟨⟩⟩ := Option.ite_none_right_eq_some.mp h
    apply (List.perm_append_singleton s l).trans
    exact (List.perm_insertIdx s l inside).symm
  | remove position =>
    obtain ⟨s, located, ⟨⟩⟩ := Option.map_eq_some_iff.mp h
    obtain ⟨inside, rfl⟩ := List.getElem?_eq_some_iff.mp located
    rw [put?, Option.toList_none, List.append_nil]
    exact (List.getElem_cons_eraseIdx_perm inside).symm
  | length =>
    cases h
    rw [put?, Option.toList_none, List.append_nil]
    exact .refl l

/-- An edit can be made in a block if and only if it can be made in the list of its statements, and they
give the same. -/
theorem run_perform_iff {e : BlockEdit} {after : Statement} (row : (block l).FollowsTable) :
    e.perform.run (block l) = .ok (reply, after) ↔
      ∃ l', e.onList.run l = some (reply, l') ∧ after = block l' := by
  constructor
  · intro h
    cases edited : e.onList.run l with
    | none =>
      obtain ⟨breach, failed⟩ := fails_of_onList row edited
      rw [failed] at h
      cases h
    | some next =>
      rw [(run_of_onList row edited).1] at h
      cases h
      exact ⟨_, rfl, rfl⟩
  · rintro ⟨l', edited, rfl⟩
    exact (run_of_onList row edited).1

theorem run_insert_remove {position : Nat} {s : Statement} (row : (block l).FollowsTable)
    (notBlock : s.kind ≠ .block) (inside : position ≤ l.length) :
    (do Edit.insert position s; Edit.remove position).run (block l) = .ok (s, block l) := by
  have longer : position < (l.insertIdx position s).length := by
    rw [List.length_insertIdx_of_le_length inside]
    exact Nat.lt_succ_of_le inside
  rw [StateT.run_bind, run_insert row notBlock inside]
  apply (run_remove (followsTable_insertIdx row notBlock inside) longer).trans
  rw [List.getElem_insertIdx_self, List.eraseIdx_insertIdx_self]

/-! ## Sequences of edits -/

theorem performAll_cons {e : BlockEdit} {edits : List BlockEdit} {this after : Statement} :
    (performAll (e :: edits)).run this = .ok (replies, after) ↔
      ∃ reply between rest, e.perform.run this = .ok (reply, between) ∧
        (performAll edits).run between = .ok (rest, after) ∧ replies = reply :: rest := by
  rw [performAll, List.mapM_cons, StateT.run_bind, bind_eq_ok]
  constructor
  · rintro ⟨⟨reply, between⟩, first, h⟩
    rw [StateT.run_bind] at h
    obtain ⟨⟨rest, last⟩, later, ⟨⟩⟩ := bind_eq_ok.mp h
    exact ⟨reply, between, rest, first, later, rfl⟩
  · rintro ⟨reply, between, rest, first, later, rfl⟩
    refine ⟨(reply, between), first, ?_⟩
    rw [StateT.run_bind]
    exact bind_eq_ok.mpr ⟨(rest, after), later, rfl⟩

theorem onListAll_cons {e : BlockEdit} {edits : List BlockEdit} :
    (onListAll (e :: edits)).run l = some (replies, l') ↔
      ∃ reply between rest, e.onList.run l = some (reply, between) ∧
        (onListAll edits).run between = some (rest, l') ∧ replies = reply :: rest := by
  rw [onListAll, List.mapM_cons, StateT.run_bind]
  constructor
  · intro h
    obtain ⟨⟨reply, between⟩, first, h⟩ := Option.bind_eq_some_iff.mp h
    rw [StateT.run_bind] at h
    obtain ⟨⟨rest, last⟩, later, ⟨⟩⟩ := Option.bind_eq_some_iff.mp h
    exact ⟨reply, between, rest, first, later, rfl⟩
  · rintro ⟨reply, between, rest, first, later, rfl⟩
    refine Option.bind_eq_some_iff.mpr ⟨(reply, between), first, ?_⟩
    rw [StateT.run_bind]
    exact Option.bind_eq_some_iff.mpr ⟨(rest, l'), later, rfl⟩

theorem run_performAll_iff {edits : List BlockEdit} {after : Statement}
    (row : (block l).FollowsTable) :
    (performAll edits).run (block l) = .ok (replies, after) ↔
      ∃ l', (onListAll edits).run l = some (replies, l') ∧ after = block l' := by
  induction edits generalizing l replies with
  | nil =>
    constructor
    · intro h
      cases h
      exact ⟨l, rfl, rfl⟩
    · rintro ⟨_, ⟨⟩, rfl⟩
      rfl
  | cons e edits ih =>
    simp only [performAll_cons, onListAll_cons, run_perform_iff row]
    constructor
    · rintro ⟨reply, _, rest, ⟨between, first, rfl⟩, later, rfl⟩
      obtain ⟨l', onList, rfl⟩ := (ih (run_of_onList row first).2).mp later
      exact ⟨l', ⟨reply, between, rest, first, onList, rfl⟩, rfl⟩
    · rintro ⟨l', ⟨reply, between, rest, first, onList, rfl⟩, rfl⟩
      have later := (ih (run_of_onList row first).2).mpr ⟨l', onList, rfl⟩
      exact ⟨reply, block between, rest, ⟨between, first, rfl⟩, later, rfl⟩

theorem perm_of_onListAll {edits : List BlockEdit}
    (h : (onListAll edits).run l = some (replies, l')) :
    (l ++ edits.filterMap put?).Perm (replies.filterMap Reply.taken? ++ l') := by
  induction edits generalizing l replies with
  | nil =>
    cases h
    simp
  | cons e edits ih =>
    obtain ⟨reply, between, rest, first, later, rfl⟩ := onListAll_cons.mp h
    have put : (e :: edits).filterMap put? = e.put?.toList ++ edits.filterMap put? := by
      cases e <;> rfl
    have taken : (reply :: rest).filterMap Reply.taken? =
        reply.taken?.toList ++ rest.filterMap Reply.taken? := by
      cases reply <;> rfl
    have before := (perm_of_onList first).append_right (edits.filterMap put?)
    have behind := (ih later).append_left reply.taken?.toList
    rw [put, taken, ← List.append_assoc, List.append_assoc reply.taken?.toList]
    rw [List.append_assoc reply.taken?.toList] at before
    exact before.trans behind

theorem run_performAll_eq (row : (block l).FollowsTable) (edits : List BlockEdit) :
    (performAll edits).run (block l) =
      ((edits.mapM onWhole).run (block l)).mapError .violation := by
  induction edits generalizing l with
  | nil => rfl
  | cons e edits ih =>
    rw [performAll, List.mapM_cons, List.mapM_cons, StateT.run_bind, StateT.run_bind, mapError_bind,
      ← run_eq_onWhole e row]
    cases performed : e.perform.run (block l) with
    | error breach => rfl
    | ok next =>
      obtain ⟨reply, between⟩ := next
      obtain ⟨l', onList, rfl⟩ := (run_perform_iff row).mp performed
      have rest := ih (run_of_onList row onList).2
      change (edits.mapM perform >>= fun rest => pure (reply :: rest)).run (block l') =
        ((edits.mapM onWhole >>= fun rest => pure (reply :: rest)).run
          (block l')).mapError .violation
      rw [StateT.run_bind, StateT.run_bind, mapError_bind, ← rest]
      rfl

/-- A block under edits is the list of its statements. A sequence of edits, and so each beginning of one,
can be made in it if and only if it can be made in the list, with the same replies and the same
statements left; those put in and those there at first are those taken out and those left. To measure a
block leaves it as it is, and what is put in is taken out again without a trace. -/
theorem edits_as_list {b : Statement} (shaped : b.WellShaped) (isBlock : b.kind = .block) :
    (∀ edits replies after, (performAll edits).run b = .ok (replies, after) ↔
      ∃ l, (onListAll edits).run b.children = some (replies, l) ∧ after = block l) ∧
    (∀ edits replies l, (onListAll edits).run b.children = some (replies, l) →
      (b.children ++ edits.filterMap put?).Perm (replies.filterMap Reply.taken? ++ l)) ∧
    Edit.length.run b = .ok (b.children.length, b) ∧
    (∀ position s, s.kind ≠ .block → position ≤ b.children.length →
      (do Edit.insert position s; Edit.remove position).run b = .ok (s, b)) ∧
    ∀ edits, (performAll edits).run b = ((edits.mapM onWhole).run b).mapError .violation := by
  have row := shaped.row
  obtain ⟨label, l⟩ := b
  cases eq_block_of_kind isBlock
  exact ⟨fun _ _ _ => run_performAll_iff row, fun _ _ _ => perm_of_onListAll, run_length row,
    fun _ _ => run_insert_remove row, run_performAll_eq row⟩

/-- The block of `enclosing`: a statement is put in front of the one that is there, which is then taken
out. -/
theorem edits_as_list_enclosing :
    let outer := (Workbench.empty.run Workbench.enclosing).statement "outer"
    let enclosed := node (.ifThen .nextIsWall) [block [.call "move"]]
    outer.WellShaped ∧ outer.kind = .block ∧
      (performAll [.insert 0 (.call "turnleft"), .remove 1, .length]).run outer =
        .ok ([.done, .removed enclosed, .count 1], block [.call "turnleft"]) := by
  intro outer enclosed
  have reached := Workbench.Reachable.empty.run Workbench.enclosing
  have shaped : outer.WellShaped := reached.holds (.register "outer")
  have content : outer = block [enclosed] := by decide +kernel
  have isBlock : outer.kind = .block := by rw [content, kind_block]
  refine ⟨shaped, isBlock, ((edits_as_list shaped isBlock).1 _ _ _).mpr ?_⟩
  rw [content]
  exact ⟨[.call "turnleft"], rfl, rfl⟩

end BlockEdit

end RobotLang.Edit
