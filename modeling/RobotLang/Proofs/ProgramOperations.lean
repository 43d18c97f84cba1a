import RobotLang.Proofs.Reachable

/-!
Programs and what is done with them. Whatever operations are carried out on a program, in whatever
order and with whatever input, its names are in order and all its statements follow the shape table:
each operation keeps this (`WellFormed.after`), so it holds after all of them (`WellFormed.run`). An
operation that replaces a part gives back the part that was there and leaves the others alone.

Main statement: `Program.stays_in_order`.
-/

namespace RobotLang

/-- Commands come to this statement. -/
def Statement.Attainable (s : Statement) : Prop := ∃ w : Workbench, w.Reachable ∧ w.Holds s

namespace Program

variable {p q : Program} {context old : Context} {body removed : Statement} {name : String}

/-! ## The invariant -/

/-- What is demanded of a program, down to the last statement in it. -/
structure InOrder (p : Program) : Prop where
  name : isIdentifier p.name = true
  names : ∀ entry ∈ p.context.entries, isIdentifier entry.1 = true ∧ isPrimitive entry.1 = false
  bodies : ∀ entry ∈ p.context.entries, entry.2.kind = .block ∧
    ∀ path t, entry.2.descendant? path = some t → t.FollowsTable
  body : p.body.kind = .block ∧ ∀ path t, p.body.descendant? path = some t → t.FollowsTable

theorem WellFormed.inOrder (formed : p.WellFormed) : p.InOrder where
  name := formed.name
  names entry mem := Parser.isInstructionName_iff.mp (formed.names entry mem)
  bodies entry mem :=
    ⟨(formed.bodies entry mem).1, Statement.wellShaped_iff_descendants.mp (formed.bodies entry mem).2⟩
  body := ⟨formed.body.1, Statement.wellShaped_iff_descendants.mp formed.body.2⟩

/-! ## Replacing parts -/

theorem setName_ok_iff :
    p.setName name = .ok q ↔ isIdentifier name = true ∧ q = { p with name } := by
  unfold setName
  split
  · rename_i named
    rw [Except.ok.injEq, and_iff_right named, eq_comm]
  · rename_i unnamed
    exact iff_of_false nofun fun h => unnamed h.1

theorem replaceContext_ok_iff :
    p.replaceContext context = .ok (old, q) ↔
      (∀ entry ∈ context.entries, isInstructionName entry.1 = true ∧ entry.2.kind = .block) ∧
        old = p.context ∧ q = { p with context } := by
  constructor
  · intro h
    obtain ⟨_, checked, h⟩ := ok_of_bind h
    cases h
    exact ⟨checked_iff.mp checked, rfl, rfl⟩
  · rintro ⟨fit, rfl, rfl⟩
    rw [replaceContext, checked_iff.mpr fit]
    rfl

theorem replaceBody_ok_iff :
    p.replaceBody body = .ok (removed, q) ↔
      body.kind = .block ∧ removed = p.body ∧ q = { p with body } := by
  constructor
  · intro h
    obtain ⟨_, isBlock, h⟩ := ok_of_bind h
    cases h
    exact ⟨Statement.kind_of_demandBlock isBlock, rfl, rfl⟩
  · rintro ⟨isBlock, rfl, rfl⟩
    rw [replaceBody, Statement.demandBlock, if_pos isBlock]
    rfl

/-! ## Runs -/

/-- What can be done with a program. -/
inductive Operation where
  /-- Begin again with the unnamed program. -/
  | new
  | setName (name : String)
  | replaceContext (context : Context)
  | replaceBody (body : Statement)
  /-- Read a program from a queue. -/
  | parse (queue : TokenQueue)
  | read (text : String)

/-- All statements that go into the program are such that commands come to them. -/
def Operation.Supplied : Operation → Prop
  | replaceContext context => ∀ entry ∈ context.entries, entry.2.Attainable
  | replaceBody body => body.Attainable
  | _ => True

/-- What an operation comes to; nothing, if its demands are not met or its parser refuses the input. -/
def perform? (p : Program) : Operation → Option Program
  | .new => some unnamed
  | .setName name => (p.setName name).toOption
  | .replaceContext context => (p.replaceContext context).toOption.map (·.2)
  | .replaceBody body => (p.replaceBody body).toOption.map (·.2)
  | .parse queue => (Parser.program (some Parser.nestingLimit) queue).result.toOption
  | .read text => (Program.parse text).toOption

/-- The program after an operation. One that comes to nothing changes nothing. -/
def after (p : Program) (o : Operation) : Program := (p.perform? o).getD p

def run (p : Program) (operations : List Operation) : Program := operations.foldl after p

theorem toOption_eq_some {ε α : Type} {x : Except ε α} {a : α} (h : x.toOption = some a) :
    x = .ok a := by
  cases x with
  | error => cases h
  | ok =>
    cases h
    rfl

theorem wellShaped_of_attainable {s : Statement} (attainable : s.Attainable) : s.WellShaped := by
  obtain ⟨w, reached, held⟩ := attainable
  exact reached.holds held

theorem WellFormed.perform {o : Operation} (formed : p.WellFormed) (supplied : o.Supplied)
    (h : p.perform? o = some q) : q.WellFormed := by
  cases o with
  | new =>
    cases h
    exact wellFormed_unnamed
  | setName name => exact wellFormed_setName formed (toOption_eq_some h)
  | replaceContext context =>
    obtain ⟨⟨old, q⟩, replaced, rfl⟩ := Option.map_eq_some_iff.mp h
    have shaped : ∀ entry ∈ context.entries, entry.2.WellShaped :=
      fun entry mem => wellShaped_of_attainable (supplied entry mem)
    exact wellFormed_replaceContext formed shaped (toOption_eq_some replaced)
  | replaceBody body =>
    obtain ⟨⟨old, q⟩, replaced, rfl⟩ := Option.map_eq_some_iff.mp h
    have shaped := wellShaped_of_attainable supplied
    exact wellFormed_replaceBody formed shaped (toOption_eq_some replaced)
  | parse queue => exact Parser.wellFormed_of_program (toOption_eq_some h)
  | read text => exact Parser.wellFormed_of_program (toOption_eq_some h)

theorem WellFormed.after {o : Operation} (formed : p.WellFormed) (supplied : o.Supplied) :
    (p.after o).WellFormed := by
  unfold Program.after
  cases performed : p.perform? o with
  | none => exact formed
  | some q => exact formed.perform supplied performed

theorem WellFormed.run {operations : List Operation} (formed : p.WellFormed)
    (supplied : ∀ o ∈ operations, o.Supplied) : (p.run operations).WellFormed := by
  induction operations generalizing p with
  | nil => exact formed
  | cons o operations ih =>
    obtain ⟨first, rest⟩ := List.forall_mem_cons.mp supplied
    exact ih (formed.after first) rest

/-- Programs stay in order under all operations and all commands. A part of a program is replaced if
and only if the new one is fit for its place, and that gives back the old part and changes no other. -/
theorem stays_in_order :
    (∀ operations : List Operation, (∀ o ∈ operations, o.Supplied) →
      (unnamed.run operations).InOrder) ∧
    (∀ w : Workbench, w.Reachable → ∀ name, (w.program name).InOrder) ∧
    (∀ (p q : Program) (name : String),
      p.setName name = .ok q ↔ isIdentifier name = true ∧ q = { p with name }) ∧
    (∀ (p q : Program) (context old : Context), p.replaceContext context = .ok (old, q) ↔
      (∀ entry ∈ context.entries, isInstructionName entry.1 = true ∧ entry.2.kind = .block) ∧
        old = p.context ∧ q = { p with context }) ∧
    ∀ (p q : Program) (body old : Statement), p.replaceBody body = .ok (old, q) ↔
      body.kind = .block ∧ old = p.body ∧ q = { p with body } := by
  refine ⟨fun operations supplied => ?_, fun w reached name => ?_, fun _ _ _ => setName_ok_iff,
    fun _ _ _ _ => replaceContext_ok_iff, fun _ _ _ _ => replaceBody_ok_iff⟩
  · exact (wellFormed_unnamed.run supplied).inOrder
  · exact (reached.sound.programs name).inOrder

/-- Two operations whose demands are not met, one whose parser refuses, and the block of `enclosing`
for a body. -/
theorem stays_in_order_enclosed :
    let block := (Workbench.empty.run Workbench.enclosing).statement "outer"
    (unnamed.run [.setName "go", .setName "IF", .replaceBody (.call "move"), .replaceBody block,
        .read "PROGRAM p IS BEGIN END q"]).InOrder ∧
      ((Workbench.empty.run Workbench.enclosing).program "p").InOrder ∧
      ∃ q, unnamed.replaceBody block = .ok (.empty, q) ∧ q = { unnamed with body := block } := by
  intro block
  obtain ⟨runs, registers, -, -, bodies⟩ := stays_in_order
  have reached := Workbench.Reachable.empty.run Workbench.enclosing
  have move : (Statement.call "move").Attainable :=
    ⟨_, reached.run [.assembleCall "s" "move"], .register "s"⟩
  have attainable : block.Attainable := ⟨_, reached, .register "outer"⟩
  have replaced : unnamed.replaceBody block = .ok (.empty, { unnamed with body := block }) :=
    (bodies _ _ _ _).mpr ⟨rfl, rfl, rfl⟩
  refine ⟨runs _ ?_, registers _ reached "p", _, replaced, rfl⟩
  simp [Operation.Supplied, move, attainable]

end Program

end RobotLang
