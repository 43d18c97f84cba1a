import RobotLang.Proofs.Assembly
import RobotLang.Proofs.ParsedTrees
import RobotLang.Workbench

/-!
The states that commands come to. Whatever is done on a workbench, with whatever queues, all
statements on it have the right shape and all programs are well formed: each command keeps this
(`Sound.apply`), so it holds wherever commands come to (`Reachable.sound`).
-/

namespace RobotLang.Workbench

open Statement

variable {w : Workbench} {name : String} {s : Statement}

/-- All registers are in order. -/
structure Sound (w : Workbench) : Prop where
  statements : ∀ name, (w.statement name).WellShaped
  programs : ∀ name, (w.program name).WellFormed

/-- What commands come to from an empty workbench, whatever is put into the queue between them. -/
inductive Reachable : Workbench → Prop
  | empty : Reachable empty
  | load {w : Workbench} (before : Reachable w) (queue : TokenQueue) : Reachable { w with queue }
  | command {w : Workbench} (before : Reachable w) (command : Command) :
      Reachable (w.after command)

theorem Reachable.run (reached : w.Reachable) (commands : List Command) :
    (w.run commands).Reachable := by
  induction commands generalizing w with
  | nil => exact reached
  | cons command commands ih => exact ih (reached.command command)

/-! ## Registers -/

theorem statement_setStatement (w : Workbench) (name other : String) (s : Statement) :
    (w.setStatement name s).statement other = if other = name then s else w.statement other :=
  Registers.get_set _ _ _ _ _

theorem program_setProgram (w : Workbench) (name other : String) (p : Program) :
    (w.setProgram name p).program other = if other = name then p else w.program other :=
  Registers.get_set _ _ _ _ _

theorem sound_empty : empty.Sound := ⟨fun _ => wellShaped_empty, fun _ => Program.wellFormed_unnamed⟩

namespace Sound

theorem setQueue (sound : w.Sound) (queue : TokenQueue) : ({ w with queue } : Workbench).Sound :=
  ⟨sound.statements, sound.programs⟩

theorem setStatement (sound : w.Sound) (shaped : s.WellShaped) : (w.setStatement name s).Sound := by
  refine ⟨fun other => ?_, sound.programs⟩
  rw [statement_setStatement]
  split
  · exact shaped
  · exact sound.statements other

theorem setProgram {p : Program} (sound : w.Sound) (formed : p.WellFormed) :
    (w.setProgram name p).Sound := by
  refine ⟨sound.statements, fun other => ?_⟩
  rw [program_setProgram]
  split
  · exact formed
  · exact sound.programs other

theorem setStatements {writes : List (String × Statement)} (sound : w.Sound)
    (shaped : ∀ write ∈ writes, write.2.WellShaped) : (w.setStatements writes).Sound := by
  induction writes generalizing w with
  | nil => exact sound
  | cons write writes ih =>
    obtain ⟨first, after⟩ := List.forall_mem_cons.mp shaped
    exact ih (sound.setStatement first) after

theorem take (sound : w.Sound) (name : String) :
    (w.take name).1.WellShaped ∧ (w.take name).2.Sound :=
  ⟨sound.statements name, sound.setStatement wellShaped_empty⟩

theorem takeAll (sound : w.Sound) (names : List String) :
    (∀ s ∈ (w.takeAll names).1, s.WellShaped) ∧ (w.takeAll names).2.Sound := by
  induction names generalizing w with
  | nil => exact ⟨by simp [Workbench.takeAll], sound⟩
  | cons name names ih =>
    obtain ⟨first, between⟩ := sound.take name
    obtain ⟨after, last⟩ := ih between
    exact ⟨List.forall_mem_cons.mpr ⟨first, after⟩, last⟩

/-! ## Parsers -/

theorem parseInto {σ : Type} {run : Parser.Run σ Statement} (sound : w.Sound) (target : String)
    (shaped : ∀ s, run.result = .ok s → s.WellShaped) : (w.parseInto target run).2.Sound := by
  unfold Workbench.parseInto
  split
  · rename_i s accepted
    exact (sound.setQueue run.rest).setStatement (shaped s accepted)
  · exact sound.setQueue run.rest

theorem parseProgramInto (sound : w.Sound) (target : String) :
    (w.parseProgramInto target).2.Sound := by
  simp only [Workbench.parseProgramInto]
  split
  · rename_i accepted
    exact (sound.setQueue _).setProgram (Parser.wellFormed_of_program accepted)
  · exact sound.setQueue _

theorem parseInstructionInto {result : Result} {target : String} (sound : w.Sound)
    (h : w.parseInstructionInto target = .ok result) : result.2.Sound := by
  unfold Workbench.parseInstructionInto at h
  obtain ⟨run, parsed, h⟩ := ok_of_bind h
  cases h
  simp only
  split
  · rename_i read
    have shaped := Parser.blockAt_of_readBody? parsed read
    exact (sound.setQueue _).setStatement (Parser.blockAt_iff.mp shaped).2.1
  · exact sound.setQueue _

/-! ## Commands -/

theorem apply {command : Command} {result : Result} (sound : w.Sound)
    (h : w.apply command = .ok result) : result.2.Sound := by
  cases command with
  | tokenize | queueWords | dequeue =>
    cases h
    exact sound.setQueue _
  | showQueue | inspect | accepts | same | print | showProgram | sameProgram | instruction =>
    cases h
    exact sound
  | blockLength target =>
    obtain ⟨_, -, h⟩ := ok_of_bind h
    cases h
    exact sound
  | parseStatement target =>
    cases h
    exact sound.parseInto target fun s accepted => (Parser.itemAt_of_statement accepted).1.2
  | parseBlock target =>
    cases h
    exact sound.parseInto target fun s accepted =>
      (Parser.blockAt_iff.mp (Parser.blockAt_of_block accepted)).2.1
  | parseIf target =>
    obtain ⟨run, parsed, h⟩ := ok_of_bind h
    cases h
    exact sound.parseInto target fun s accepted =>
      (Parser.itemAt_of_ifStatement parsed accepted).1.2
  | parseWhile target =>
    obtain ⟨run, parsed, h⟩ := ok_of_bind h
    cases h
    exact sound.parseInto target fun s accepted =>
      (Parser.itemAt_of_whileStatement parsed accepted).1.2
  | parseCall target =>
    obtain ⟨⟨s, queue⟩, parsed, h⟩ := ok_of_bind h
    cases h
    exact (sound.setQueue queue).setStatement (Parser.item_of_callStatement parsed).2
  | parseInstruction target => exact sound.parseInstructionInto h
  | parseProgram target =>
    cases h
    exact sound.parseProgramInto target
  | readStatements target text =>
    simp only [Workbench.apply] at h
    split at h <;> cases h
    · rename_i accepted
      exact sound.setStatement (Parser.blockAt_iff.mp (Parser.blockAt_of_statements accepted)).2.1
    · exact sound
  | readProgram target text =>
    simp only [Workbench.apply] at h
    split at h <;> cases h
    · rename_i accepted
      exact sound.setProgram (Parser.wellFormed_of_program accepted)
    · exact sound
  | copy target source =>
    cases h
    exact sound.setStatement (sound.statements source)
  | copyChild target source path =>
    simp only [Workbench.apply] at h
    split at h <;> cases h
    · rename_i located
      exact sound.setStatement ((sound.statements source).descendant located)
    · exact sound
  | assemble target label children =>
    -- Only the kinds of the children are checked, so their shape has to come from the registers.
    obtain ⟨below, emptied⟩ := sound.takeAll children
    obtain ⟨s, assembled, h⟩ := ok_of_bind h
    cases h
    exact emptied.setStatement (wellShaped_of_assemble assembled below)
  | disassemble target names =>
    obtain ⟨shaped, emptied⟩ := sound.take target
    cases h
    refine emptied.setStatements fun write mem => ?_
    obtain ⟨⟨child, i⟩, located, rfl⟩ := List.mem_map.mp mem
    exact shaped.child (List.fst_mem_of_mem_zipIdx located)
  | transfer target source =>
    obtain ⟨shaped, emptied⟩ := sound.take source
    cases h
    exact emptied.setStatement shaped
  | clear target =>
    cases h
    exact sound.setStatement wellShaped_empty
  | insert target position source =>
    obtain ⟨shaped, emptied⟩ := sound.take source
    obtain ⟨s, inserted, h⟩ := ok_of_bind h
    cases h
    exact emptied.setStatement (wellShaped_insert (emptied.statements target) shaped inserted)
  | remove target position removed =>
    obtain ⟨⟨s, block⟩, parts, h⟩ := ok_of_bind h
    cases h
    obtain ⟨shaped, remaining⟩ := wellShaped_remove (sound.statements target) parts
    exact sound.setStatements (by simpa using ⟨remaining, shaped⟩)
  | assembleIf target condition block =>
    obtain ⟨shaped, emptied⟩ := sound.take block
    obtain ⟨s, assembled, h⟩ := ok_of_bind h
    cases h
    exact emptied.setStatement (wellShaped_assembleIf shaped assembled)
  | assembleIfElse target condition yes no =>
    obtain ⟨shapedYes, between⟩ := sound.take yes
    obtain ⟨shapedNo, emptied⟩ := between.take no
    obtain ⟨s, assembled, h⟩ := ok_of_bind h
    cases h
    exact emptied.setStatement (wellShaped_assembleIfElse shapedYes shapedNo assembled)
  | assembleWhile target condition block =>
    obtain ⟨shaped, emptied⟩ := sound.take block
    obtain ⟨s, assembled, h⟩ := ok_of_bind h
    cases h
    exact emptied.setStatement (wellShaped_assembleWhile shaped assembled)
  | assembleCall target instruction =>
    obtain ⟨s, assembled, h⟩ := ok_of_bind h
    cases h
    exact sound.setStatement (wellShaped_assembleCall assembled)
  | disassembleIf target block =>
    obtain ⟨⟨condition, s⟩, parts, h⟩ := ok_of_bind h
    cases h
    have shaped := sound.statements target
    rw [partsOfIf_ok parts] at shaped
    have inside : s.WellShaped := shaped.child List.mem_cons_self
    exact sound.setStatements (by simpa using ⟨wellShaped_empty, inside⟩)
  | disassembleIfElse target yes no =>
    obtain ⟨⟨condition, s, t⟩, parts, h⟩ := ok_of_bind h
    cases h
    have shaped := sound.statements target
    rw [partsOfIfElse_ok parts] at shaped
    have insideYes : s.WellShaped := shaped.child List.mem_cons_self
    have insideNo : t.WellShaped := shaped.child (List.mem_cons_of_mem s List.mem_cons_self)
    exact sound.setStatements (by simpa using ⟨wellShaped_empty, insideYes, insideNo⟩)
  | disassembleWhile target block =>
    obtain ⟨⟨condition, s⟩, parts, h⟩ := ok_of_bind h
    cases h
    have shaped := sound.statements target
    rw [partsOfWhile_ok parts] at shaped
    have inside : s.WellShaped := shaped.child List.mem_cons_self
    exact sound.setStatements (by simpa using ⟨wellShaped_empty, inside⟩)
  | disassembleCall target =>
    obtain ⟨_, -, h⟩ := ok_of_bind h
    cases h
    exact sound.setStatement wellShaped_empty
  | newProgram target =>
    cases h
    exact sound.setProgram Program.wellFormed_unnamed
  | setName target name =>
    obtain ⟨p, named, h⟩ := ok_of_bind h
    cases h
    exact sound.setProgram (Program.wellFormed_setName (sound.programs target) named)
  | replaceContext target bodies =>
    obtain ⟨shaped, emptied⟩ := sound.takeAll ((bodies.mergeSort fun a b => a.1 ≤ b.1).map (·.2))
    obtain ⟨⟨old, p⟩, replaced, h⟩ := ok_of_bind h
    cases h
    refine emptied.setProgram
      (Program.wellFormed_replaceContext (emptied.programs target) (fun entry mem => ?_) replaced)
    exact shaped _ (List.of_mem_zip (Context.mem_of_mem_ofEntries mem)).2
  | replaceBody target body =>
    obtain ⟨shaped, emptied⟩ := sound.take body
    obtain ⟨⟨old, p⟩, replaced, h⟩ := ok_of_bind h
    cases h
    exact emptied.setProgram
      (Program.wellFormed_replaceBody (emptied.programs target) shaped replaced)
  | copyBody target program =>
    cases h
    exact sound.setStatement (sound.programs program).body.2

theorem after (sound : w.Sound) (command : Command) : (w.after command).Sound := by
  unfold Workbench.after
  split
  · rename_i done
    exact sound.apply done
  · exact sound

end Sound

theorem Reachable.sound (reached : w.Reachable) : w.Sound := by
  induction reached with
  | empty => exact sound_empty
  | load _ queue ih => exact ih.setQueue queue
  | command _ command ih => exact ih.after command

/-! ## Statements held -/

/-- A statement stands in a register, or in a program that does. -/
inductive Holds (w : Workbench) : Statement → Prop
  | register (name : String) : Holds w (w.statement name)
  | body (name : String) : Holds w (w.program name).body
  | instruction (name : String) {entry : String × Statement}
      (declared : entry ∈ (w.program name).context.entries) : Holds w entry.2

theorem Reachable.holds (reached : w.Reachable) (held : w.Holds s) : s.WellShaped := by
  have sound := reached.sound
  cases held with
  | register name => exact sound.statements name
  | body name => exact (sound.programs name).body.2
  | instruction name declared => exact ((sound.programs name).bodies _ declared).2

/-- All that is ever held follows the shape table, down to the last descendant. -/
theorem Reachable.followsTable {path : List Nat} {t : Statement} (reached : w.Reachable)
    (held : w.Holds s) (below : s.descendant? path = some t) : t.FollowsTable :=
  wellShaped_iff_descendants.mp (reached.holds held) path t below

/-- A call that is put into a block, the block into an IF, and the IF into another block. -/
def enclosing : List Command :=
  [.assembleCall "s" "move", .insert "inner" 0 "s", .assembleIf "s" .nextIsWall "inner",
    .insert "outer" 0 "s"]

theorem followsTable_enclosed :
    (empty.run enclosing).Reachable ∧
      ((empty.run enclosing).statement "outer").descendant? [0, 0, 0] = some (.call "move") ∧
      (Statement.call "move").FollowsTable :=
  have reached := Reachable.empty.run enclosing
  have below : ((empty.run enclosing).statement "outer").descendant? [0, 0, 0] =
      some (.call "move") := by decide +kernel
  ⟨reached, below, reached.followsTable (.register "outer") below⟩

end RobotLang.Workbench
