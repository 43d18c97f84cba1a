import RobotLang.Proofs.Preconditions

/-!
Taking statements apart and putting them together. Every operation that assembles has one that
disassembles, and each of the two undoes the other, whatever the statement was before (`Inverse`). A whole
tree is taken apart down to its leaves, each statement behind those below it (`TakenApart`), and built up
again from the labels alone, with a stack of the statements that wait for the one above them (`rebuild`).
The tree comes back, because what is taken out of a statement of the right shape has the right shape and
is accepted again.

Main statement: `assembly_inverts_disassembly`.
-/

namespace RobotLang.Edit

open Statement

/-! ## Pairs of operations -/

/-- An operation that puts statements together from parts, and one that takes them apart. -/
structure Inverse {α : Type} (assemble : α → Edit Unit) (disassemble : Edit α)
    (fit : α → Prop) (ofKind : Statement → Prop) : Prop where
  returns : ∀ this parts, fit parts →
    (do assemble parts; disassemble).run this = .ok (parts, .empty)
  empties : ∀ this parts after, this.WellShaped → disassemble.run this = .ok (parts, after) →
    after = .empty
  restores : ∀ s, s.WellShaped → ofKind s →
    ∃ parts, disassemble.run s = .ok (parts, .empty) ∧
      ∀ this, (assemble parts).run this = .ok ((), s)

theorem Inverse.of {α : Type} {assemble : α → Edit Unit} {disassemble : Edit α} {fit : α → Prop}
    {ofKind : Statement → Prop} (whole : α → Statement)
    (puts : ∀ this parts, fit parts → (assemble parts).run this = .ok ((), whole parts))
    (takes : ∀ parts, disassemble.run (whole parts) = .ok (parts, .empty))
    (forms : ∀ s, s.WellShaped → ofKind s → ∃ parts, fit parts ∧ s = whole parts)
    (demands : ∀ s parts after, s.WellShaped → disassemble.run s = .ok (parts, after) → ofKind s) :
    Inverse assemble disassemble fit ofKind where
  returns this parts fits := by
    rw [StateT.run_bind, puts this parts fits]
    exact takes parts
  empties this parts after shaped h := by
    obtain ⟨parts, -, rfl⟩ := forms this shaped (demands this parts after shaped h)
    rw [takes] at h
    cases h
    rfl
  restores s shaped ofKind := by
    obtain ⟨parts, fits, rfl⟩ := forms s shaped ofKind
    exact ⟨parts, takes parts, fun this => puts this parts fits⟩

theorem inverse_kernel : Inverse (fun parts => assemble parts.1 parts.2) disassemble
    (fun parts => (node parts.1 parts.2).FollowsTable) fun _ => True := by
  apply Inverse.of (fun parts => node parts.1 parts.2)
  · exact fun _ _ => run_fit
  · exact fun _ => rfl
  · rintro ⟨label, children⟩ shaped -
    exact ⟨(label, children), shaped.row, rfl⟩
  · exact fun _ _ _ _ _ => trivial

theorem inverse_if : Inverse (fun parts => assembleIf parts.1 parts.2) disassembleIf
    (fun parts => parts.2.kind = .block) fun s => s.kind = .ifThen := by
  apply Inverse.of (fun parts => node (.ifThen parts.1) [parts.2])
  · exact fun _ _ => run_assembleIf
  · exact fun _ => run_disassembleIf
  · rintro ⟨label, children⟩ shaped ofKind
    cases label <;> cases ofKind
    obtain ⟨block, rfl, isBlock⟩ := shaped.row
    exact ⟨(_, block), isBlock, rfl⟩
  · exact fun _ _ _ shaped done =>
      (enforces_perform .disassembleIf shaped.row).met done _ List.mem_cons_self

theorem inverse_ifElse : Inverse (fun parts => assembleIfElse parts.1 parts.2.1 parts.2.2)
    disassembleIfElse (fun parts => parts.2.1.kind = .block ∧ parts.2.2.kind = .block)
    fun s => s.kind = .ifElse := by
  apply Inverse.of (fun parts => node (.ifElse parts.1) [parts.2.1, parts.2.2])
  · exact fun _ _ blocks => run_assembleIfElse blocks.1 blocks.2
  · exact fun _ => run_disassembleIfElse
  · rintro ⟨label, children⟩ shaped ofKind
    cases label <;> cases ofKind
    obtain ⟨yes, no, rfl, blocks⟩ := shaped.row
    exact ⟨(_, yes, no), blocks, rfl⟩
  · exact fun _ _ _ shaped done =>
      (enforces_perform .disassembleIfElse shaped.row).met done _ List.mem_cons_self

theorem inverse_while : Inverse (fun parts => assembleWhile parts.1 parts.2) disassembleWhile
    (fun parts => parts.2.kind = .block) fun s => s.kind = .whileDo := by
  apply Inverse.of (fun parts => node (.whileDo parts.1) [parts.2])
  · exact fun _ _ => run_assembleWhile
  · exact fun _ => run_disassembleWhile
  · rintro ⟨label, children⟩ shaped ofKind
    cases label <;> cases ofKind
    obtain ⟨block, rfl, isBlock⟩ := shaped.row
    exact ⟨(_, block), isBlock, rfl⟩
  · exact fun _ _ _ shaped done =>
      (enforces_perform .disassembleWhile shaped.row).met done _ List.mem_cons_self

theorem inverse_call : Inverse assembleCall disassembleCall
    (fun instruction => isIdentifier instruction = true) fun s => s.kind = .call := by
  apply Inverse.of Statement.call
  · exact fun _ _ => run_assembleCall
  · exact fun _ => rfl
  · rintro ⟨label, children⟩ shaped ofKind
    cases label <;> cases ofKind
    obtain ⟨rfl, named⟩ := shaped.row
    exact ⟨_, named, rfl⟩
  · exact fun _ _ _ shaped done =>
      (enforces_perform .disassembleCall shaped.row).met done _ List.mem_cons_self

/-! ## Whole trees -/

/-- The operations that are used: those of the kernel, or those that each kind has for itself. A block has
none but those of the kernel. -/
inductive Way where
  | kernel
  | ofKind

namespace Way

def takeApart : Way → Edit (Label × List Statement)
  | kernel => disassemble
  | ofKind => do
    match ← Edit.kind with
    | .block => disassemble
    | .ifThen =>
      let (condition, block) ← disassembleIf
      return (.ifThen condition, [block])
    | .ifElse =>
      let (condition, yes, no) ← disassembleIfElse
      return (.ifElse condition, [yes, no])
    | .whileDo =>
      let (condition, block) ← disassembleWhile
      return (.whileDo condition, [block])
    | .call => return (.call (← disassembleCall), [])

def putTogether : Way → Label → List Statement → Edit Unit
  | ofKind, .ifThen condition, [block] => assembleIf condition block
  | ofKind, .ifElse condition, [yes, no] => assembleIfElse condition yes no
  | ofKind, .whileDo condition, [block] => assembleWhile condition block
  | ofKind, .call instruction, [] => assembleCall instruction
  | _, label, children => assemble label children

variable {s this : Statement}

theorem run_takeApart (way : Way) (shaped : s.WellShaped) :
    way.takeApart.run s = .ok (s.parts, .empty) := by
  have row := shaped.row
  obtain ⟨label, children⟩ := s
  cases way with
  | kernel => rfl
  | ofKind =>
    cases label with
    | block => rfl
    | ifThen c | whileDo c =>
      obtain ⟨block, rfl, -⟩ := row
      rfl
    | ifElse c =>
      obtain ⟨yes, no, rfl, -⟩ := row
      rfl
    | call instruction =>
      obtain ⟨rfl, -⟩ := row
      rfl

theorem run_putTogether (way : Way) {label : Label} {children : List Statement}
    (row : (node label children).FollowsTable) :
    (way.putTogether label children).run this = .ok ((), node label children) := by
  cases way with
  | kernel => exact run_fit row
  | ofKind =>
    cases label with
    | block => exact run_fit row
    | ifThen c =>
      obtain ⟨block, rfl, isBlock⟩ := row
      exact run_assembleIf isBlock
    | ifElse c =>
      obtain ⟨yes, no, rfl, yesBlock, noBlock⟩ := row
      exact run_assembleIfElse yesBlock noBlock
    | whileDo c =>
      obtain ⟨block, rfl, isBlock⟩ := row
      exact run_assembleWhile isBlock
    | call instruction =>
      obtain ⟨rfl, named⟩ := row
      exact run_assembleCall named

end Way

/-- Statements taken apart down to their leaves, from the first to the last, each one behind those below
it. What is left of a statement is its label and how many statements stood below it. -/
inductive TakenApart (way : Way) : List Statement → List (Label × Nat) → Prop
  | nil : TakenApart way [] []
  | cons {s emptied : Statement} {rest children : List Statement} {label : Label}
      {below after : List (Label × Nat)}
      (apart : way.takeApart.run s = .ok ((label, children), emptied))
      (inside : TakenApart way children below) (behind : TakenApart way rest after) :
      TakenApart way (s :: rest) (below ++ (label, children.length) :: after)

/-- Fresh statements put together, one for each label, from the ones on the stack. -/
def rebuild (way : Way) : List (Label × Nat) → List Statement → Except Breach (List Statement)
  | [], stack => .ok stack
  | (label, n) :: labels, stack => do
    let (_, s) ← (way.putTogether label (stack.take n).reverse).run .empty
    rebuild way labels (s :: stack.drop n)

theorem exists_takenApart (way : Way) : ∀ statements : List Statement,
    (∀ s ∈ statements, s.WellShaped) → ∃ labels, TakenApart way statements labels
  | [], _ => ⟨[], .nil⟩
  | node label children :: rest, shaped => by
    obtain ⟨first, later⟩ := List.forall_mem_cons.mp shaped
    obtain ⟨below, inside⟩ := exists_takenApart way children fun child mem => first.child mem
    obtain ⟨after, behind⟩ := exists_takenApart way rest later
    exact ⟨_, .cons (way.run_takeApart first) inside behind⟩

/-- What is rebuilt lies on the stack, the last statement on top. -/
theorem rebuild_takenApart {way : Way} {statements : List Statement} {labels : List (Label × Nat)}
    (apart : TakenApart way statements labels) (shaped : ∀ s ∈ statements, s.WellShaped)
    (way' : Way) (later : List (Label × Nat)) (stack : List Statement) :
    rebuild way' (labels ++ later) stack = rebuild way' later (statements.reverse ++ stack) := by
  induction apart generalizing later stack with
  | nil => rfl
  | @cons s emptied rest children label below after apart _ _ inside behind =>
    obtain ⟨first, others⟩ := List.forall_mem_cons.mp shaped
    rw [way.run_takeApart first] at apart
    cases apart
    obtain ⟨label, children⟩ := s
    have assembled : (way'.putTogether label children).run .empty = .ok ((), node label children) :=
      way'.run_putTogether first.row
    -- The statements below lie on the stack in reverse, on top of those that wait.
    have own : ((children.reverse ++ stack).take children.length).reverse = children := by
      rw [List.take_left' List.length_reverse, List.reverse_reverse]
    have waiting : (children.reverse ++ stack).drop children.length = stack :=
      List.drop_left' List.length_reverse
    calc
      rebuild way' ((below ++ (label, children.length) :: after) ++ later) stack
      _ = rebuild way' ((label, children.length) :: (after ++ later))
          (children.reverse ++ stack) := by
        rw [List.append_assoc, List.cons_append]
        exact inside (fun child mem => first.child mem) _ stack
      _ = rebuild way' (after ++ later) (node label children :: stack) := by
        rw [rebuild, own, assembled, waiting]
        rfl
      _ = rebuild way' later (rest.reverse ++ node label children :: stack) :=
        behind others later _
      _ = rebuild way' later ((node label children :: rest).reverse ++ stack) := by
        rw [List.reverse_cons, List.append_assoc, List.singleton_append]

theorem rebuild_of_takenApart {way : Way} {s : Statement} {labels : List (Label × Nat)}
    (shaped : s.WellShaped) (apart : TakenApart way [s] labels) (way' : Way) :
    rebuild way' labels [] = .ok [s] := by
  have rebuilt := rebuild_takenApart apart (by simpa using shaped) way' [] []
  rw [List.append_nil] at rebuilt
  exact rebuilt

/-- To assemble and to disassemble undo each other, for the kernel and for each kind by itself; and a
tree that is taken apart down to its leaves is built up again, in either way, from what either way has
left of it. All this is about operations that come to what the functions on whole statements come to. -/
theorem assembly_inverts_disassembly :
    Inverse (fun parts => assemble parts.1 parts.2) disassemble
      (fun parts => (node parts.1 parts.2).FollowsTable) (fun _ => True) ∧
    Inverse (fun parts => assembleIf parts.1 parts.2) disassembleIf
      (fun parts => parts.2.kind = .block) (fun s => s.kind = .ifThen) ∧
    Inverse (fun parts => assembleIfElse parts.1 parts.2.1 parts.2.2) disassembleIfElse
      (fun parts => parts.2.1.kind = .block ∧ parts.2.2.kind = .block) (fun s => s.kind = .ifElse) ∧
    Inverse (fun parts => assembleWhile parts.1 parts.2) disassembleWhile
      (fun parts => parts.2.kind = .block) (fun s => s.kind = .whileDo) ∧
    Inverse assembleCall disassembleCall (fun instruction => isIdentifier instruction = true)
      (fun s => s.kind = .call) ∧
    (∀ (way way' : Way) (s : Statement), s.WellShaped →
      (∃ labels, TakenApart way [s] labels) ∧
        ∀ labels, TakenApart way [s] labels → rebuild way' labels [] = .ok [s]) ∧
    ∀ (o : Operation) (this : Statement), this.WellShaped →
      o.perform.run this = (o.outcome this).mapError .violation := by
  refine ⟨inverse_kernel, inverse_if, inverse_ifElse, inverse_while, inverse_call, ?_, ?_⟩
  · intro way way' s shaped
    refine ⟨exists_takenApart way [s] (by simpa using shaped), fun labels apart => ?_⟩
    exact rebuild_of_takenApart shaped apart way'
  · exact fun o this shaped => o.run_perform shaped.row

/-- The block of `enclosing`, taken apart by the operations of each kind and built up by the kernel. -/
theorem assembly_inverts_disassembly_enclosing :
    let outer := (Workbench.empty.run Workbench.enclosing).statement "outer"
    outer.WellShaped ∧ ∃ labels, TakenApart .ofKind [outer] labels ∧
      rebuild .kernel labels [] = .ok [outer] := by
  intro outer
  have reached := Workbench.Reachable.empty.run Workbench.enclosing
  have shaped : outer.WellShaped := reached.holds (.register "outer")
  obtain ⟨-, -, -, -, -, trees, -⟩ := assembly_inverts_disassembly
  obtain ⟨⟨labels, apart⟩, rebuilt⟩ := trees .ofKind .kernel outer shaped
  exact ⟨shaped, labels, apart, rebuilt labels apart⟩

end RobotLang.Edit
