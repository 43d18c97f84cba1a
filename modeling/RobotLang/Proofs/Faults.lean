import RobotLang.Proofs.Machine
import RobotLang.Parser.Program

/-!
Where faults are found, and what they show as found. A token that is refused is the place of the error,
it is what the message shows, and it has been taken only if it is a primitive name
(`DeclarationState.read_error`). A repeated name is the exception: it is found when its declaration has
been read, and its place is the beginning of the declaration (`ProgramState.read_error`). So the errors
of runs point at tokens of their queues (`Machine.FindsAt.pointsAt`).
-/

namespace RobotLang

/-- What the message of a fault shows as found. -/
def Fault.found? : Fault → Option Found
  | .keywordDue _ found | .branchEndDue found | .conditionDue _ found | .nameDue _ found
  | .statementDue found | .closingName _ _ found | .afterProgram _ found
  | .afterStatements found => some found
  | .notACondition word | .primitiveName word => some (.word word)
  | .duplicateInstruction _ | .nestedDeeperThan _ => none

namespace Parser

variable {limit : Option Nat} {t : Token} {fault : Fault} {found : Found} {e : ParseError}
  {taken : Bool}

/-- The fault shows this as found, if it shows anything, and is none of those that are found behind a
name. -/
structure FaultAt (found : Found) (fault : Fault) : Prop where
  shown : ∀ f ∈ fault.found?, f = found
  notPrimitive : fault.kind ≠ .primitiveName
  notRepeated : fault.kind ≠ .duplicateInstruction

theorem FaultAt.of_shown (shown : fault.found? = some found)
    (notPrimitive : fault.kind ≠ .primitiveName) : FaultAt found fault := by
  refine ⟨by simp [shown], notPrimitive, fun repeated => ?_⟩
  cases fault <;> cases repeated
  cases shown

/-- The faults of a block that goes on with something else than what is due in it. -/
inductive BlockFault (found : Found) : Fault → Prop
  | tooDeep (n : Nat) : BlockFault found (.nestedDeeperThan n)
  | statement : BlockFault found (.statementDue found)
  | condition (construct : Construct) : BlockFault found (.conditionDue construct found)
  | opening (construct : Construct) : BlockFault found (.keywordDue (.afterCondition construct) found)
  | branchEnd : BlockFault found (.branchEndDue found)
  | blockEnd (construct : Construct) : BlockFault found (.keywordDue (.afterBlock construct) found)
  | closing (construct : Construct) : BlockFault found (.keywordDue (.afterEnd construct) found)

theorem BlockFault.faultAt (h : BlockFault found fault) : FaultAt found fault := by
  cases h with
  | tooDeep n => exact ⟨by simp [Fault.found?], by simp [Fault.kind], by simp [Fault.kind]⟩
  | _ => exact .of_shown rfl (by simp [Fault.kind])

theorem Part.blockFault_endDue (part : Part) (found : Found) :
    BlockFault found (part.endDue found) := by
  cases part with
  | thenBlock => exact .branchEnd
  | elseBlock yes => exact .blockEnd .«if»
  | whileBlock => exact .blockEnd .«while»

namespace BlockState

variable {s : BlockState} {word : String}

theorem blockFault_of_readStatement (h : s.readStatement word = .refuse fault) :
    BlockFault (.word word) fault := by
  unfold readStatement at h
  split at h
  · cases h
  split at h
  · cases h
  split at h
  · unfold readEnd at h
    split at h <;> cases h
  split at h
  · rename_i isElse
    subst isElse
    unfold readElse at h
    split at h <;> cases h
    exact Part.blockFault_endDue ..
  split at h <;> cases h
  exact .statement

theorem blockFault_of_step (h : s.step limit word = .refuse fault) :
    BlockFault (.word word) fault := by
  obtain ⟨frames, done, point⟩ := s
  cases point with
  | statement =>
    simp only [step] at h
    split at h
    · cases h
      exact .tooDeep _
    · exact blockFault_of_readStatement h
  | condition construct =>
    simp only [step] at h
    split at h <;> cases h
    exact .condition construct
  | opening construct =>
    simp only [step] at h
    split at h <;> cases h
    exact .opening construct
  | closing construct =>
    simp only [step] at h
    split at h <;> cases h
    exact .closing construct

theorem blockFault_of_endFault? (h : s.endFault? limit = some fault) :
    BlockFault .endOfInput fault := by
  unfold endFault? at h
  split at h
  · split at h <;> cases h
    · exact .tooDeep _
    · exact Part.blockFault_endDue ..
  · cases h
    exact .condition _
  · cases h
    exact .opening _
  · cases h
    exact .closing _

theorem faultAt_getD {otherwise : Fault} (shown : otherwise.found? = some .endOfInput)
    (notPrimitive : otherwise.kind ≠ .primitiveName) :
    FaultAt .endOfInput ((s.endFault? limit).getD otherwise) := by
  cases ended : s.endFault? limit with
  | none => exact .of_shown shown notPrimitive
  | some fault => exact (blockFault_of_endFault? ended).faultAt

end BlockState

/-- The error is at the token, which has been taken only if it is a primitive name. -/
def FoundAt (t : Token) (taken : Bool) (e : ParseError) : Prop :=
  e.span = t.span ∧ (taken = true ↔ e.fault.kind = .primitiveName)

/-- The error is at the token and shows it as found, and no name repeats. -/
structure RefusedAt (t : Token) (taken : Bool) (e : ParseError) : Prop where
  foundAt : FoundAt t taken e
  shown : ∀ f ∈ e.fault.found?, f = .word t.text
  notRepeated : e.fault.kind ≠ .duplicateInstruction

theorem refusedAt_of_refuse {σ α : Type} (faultAt : FaultAt (.word t.text) fault)
    (h : (Move.refuse fault t : Move σ α) = .halt taken (.error e)) : RefusedAt t taken e := by
  cases h
  exact ⟨⟨rfl, by simp [faultAt.notPrimitive]⟩, faultAt.shown, faultAt.notRepeated⟩

theorem DeclarationState.read_error {s : DeclarationState}
    (h : s.read limit t = .halt taken (.error e)) : RefusedAt t taken e := by
  cases s with
  | naming =>
    simp only [read] at h
    split at h
    · split at h <;> cases h
      exact ⟨⟨rfl, by simp [Fault.kind]⟩, by simp [Fault.found?], by simp [Fault.kind]⟩
    · exact refusedAt_of_refuse (.of_shown rfl (by simp [Fault.kind])) h
  | named | closing =>
    simp only [read] at h
    split at h
    · cases h
    · exact refusedAt_of_refuse (.of_shown rfl (by simp [Fault.kind])) h
  | inBody name b =>
    simp only [read] at h
    split at h
    · cases h
    · rename_i refused
      exact refusedAt_of_refuse (BlockState.blockFault_of_step refused).faultAt h
    · split at h
      · cases h
      · exact refusedAt_of_refuse (.of_shown rfl (by simp [Fault.kind])) h

theorem DeclarationState.faultAt_endFault (s : DeclarationState) :
    FaultAt .endOfInput (s.endFault limit) := by
  cases s with
  | inBody name b =>
    exact BlockState.faultAt_getD rfl (by simp [Fault.kind])
  | _ => exact .of_shown rfl (by simp [endFault, Fault.kind])

/-- A declaration of a name that has been declared is read to its end, and refused where it began. -/
inductive ProgramState.Repeats (limit : Option Nat) (t : Token) (taken : Bool) :
    ProgramState → ParseError → Prop
  | repeats {name instruction : String} {declared : List (String × Statement)} {body : Statement}
      {place : Option Span} {d : DeclarationState}
      (accepted : d.read limit t = .halt taken (.ok (instruction, body)))
      (old : isDeclared instruction declared = true) :
      Repeats limit t taken (.inDeclaration name declared place d)
        ⟨.duplicateInstruction instruction, place⟩

theorem ProgramState.read_error {s : ProgramState} (h : s.read limit t = .halt taken (.error e)) :
    RefusedAt t taken e ∨ s.Repeats limit t taken e := by
  cases s with
  | start | naming | named | closing =>
    left
    simp only [read] at h
    split at h
    · cases h
    · exact refusedAt_of_refuse (.of_shown rfl (by simp [Fault.kind])) h
  | declaring =>
    left
    simp only [read] at h
    split at h
    · cases h
    split at h
    · cases h
    · exact refusedAt_of_refuse (.of_shown rfl (by simp [Fault.kind])) h
  | inDeclaration name declared place d =>
    simp only [read] at h
    split at h
    · cases h
    · rename_i refused
      cases h
      exact .inl (DeclarationState.read_error refused)
    · rename_i accepted
      split at h <;> cases h
      rename_i old
      exact .inr (.repeats accepted old)
  | inBody name declared b =>
    left
    simp only [read] at h
    split at h
    · cases h
    · rename_i refused
      exact refusedAt_of_refuse (BlockState.blockFault_of_step refused).faultAt h
    · split at h
      · cases h
      · exact refusedAt_of_refuse (.of_shown rfl (by simp [Fault.kind])) h
  | complete name declared body =>
    exact .inl (refusedAt_of_refuse (.of_shown rfl (by simp [Fault.kind])) h)

theorem ProgramState.faultAt_of_finish {s : ProgramState} (h : s.finish limit = .error fault) :
    FaultAt .endOfInput fault := by
  cases s with
  | inDeclaration name declared place d =>
    cases h
    exact d.faultAt_endFault
  | inBody name declared b =>
    cases h
    exact BlockState.faultAt_getD rfl (by simp [Fault.kind])
  | complete name declared body => cases h
  | _ =>
    cases h
    exact .of_shown rfl (by simp [Fault.kind])

/-! ## Machines -/

/-- Wherever a machine ends with this error, it is at the token that is refused, and shows it. -/
structure Machine.FindsAt {σ α : Type} (m : Machine σ α) (e : ParseError) : Prop where
  word : ∀ {s t taken}, m.onWord s t = .halt taken (.error e) → RefusedAt t taken e
  ending : ∀ {s place}, m.onEnd s place = .error e → e.span = place ∧ FaultAt .endOfInput e.fault

theorem block_findsAt (e : ParseError) : (blockMachine limit).FindsAt e where
  word := by
    intro s t taken h
    simp only [blockMachine] at h
    split at h
    · cases h
    · cases h
    · rename_i refused
      exact refusedAt_of_refuse (BlockState.blockFault_of_step refused).faultAt h
  ending := by
    intro s place h
    simp only [blockMachine] at h
    split at h <;> cases h
    rename_i ended
    exact ⟨rfl, (BlockState.blockFault_of_endFault? ended).faultAt⟩

theorem statement_findsAt (e : ParseError) : (statementMachine limit).FindsAt e where
  word := by
    intro s t taken h
    simp only [statementMachine] at h
    split at h
    · split at h <;> cases h
    · exact refusedAt_of_refuse (.of_shown rfl (by simp [Fault.kind])) h
    · rename_i refused
      exact refusedAt_of_refuse (BlockState.blockFault_of_step refused).faultAt h
  ending := by
    intro s place h
    cases h
    exact ⟨rfl, BlockState.faultAt_getD rfl (by simp [Fault.kind])⟩

theorem declaration_findsAt (e : ParseError) : (declarationMachine limit).FindsAt e where
  word h := DeclarationState.read_error h
  ending := by
    intro s place h
    cases h
    exact ⟨rfl, s.faultAt_endFault⟩

theorem program_onEnd_error {s : ProgramState} {place : Option Span}
    (h : (programMachine limit).onEnd s place = .error e) :
    e.span = place ∧ FaultAt .endOfInput e.fault := by
  simp only [programMachine] at h
  cases finished : s.finish limit with
  | ok p =>
    rw [finished] at h
    cases h
  | error fault =>
    rw [finished] at h
    cases h
    exact ⟨rfl, ProgramState.faultAt_of_finish finished⟩

theorem program_findsAt (new : e.fault.kind ≠ .duplicateInstruction) :
    (programMachine limit).FindsAt e where
  word := by
    intro s t taken h
    rcases ProgramState.read_error h with refused | repeats
    · exact refused
    · cases repeats
      exact absurd rfl new
  ending := program_onEnd_error

/-! ## Runs -/

/-- The error is at the token, and shows it if it shows anything, and no name repeats. -/
structure PointsAt (t : Token) (e : ParseError) : Prop where
  span : e.span = t.span
  shown : ∀ f ∈ e.fault.found?, f = Parser.found t
  notRepeated : e.fault.kind ≠ .duplicateInstruction

theorem Machine.FindsAt.pointsAt {σ α : Type} {m : Machine σ α} (finds : m.FindsAt e) {s : σ}
    {q : TokenQueue} (failed : (m.run s q).result = .error e) : ∃ t ∈ q.toList, PointsAt t e := by
  obtain ⟨taken, left, split, -, -, stops⟩ := m.run_stops s q
  have front : left.front ∈ q.toList := by
    obtain ⟨behind, first⟩ := left.toList_eq_cons
    simp [split, first]
  refine ⟨left.front, front, ?_⟩
  rcases stops.front with ⟨ended, comes⟩ | ⟨goesOn, taken, halts⟩
  · obtain ⟨place, faultAt⟩ := finds.ending (comes.trans failed)
    have isEnd : left.front.isEnd = true := ended
    exact ⟨place, by simpa [Parser.found, isEnd] using faultAt.shown, faultAt.notRepeated⟩
  · rw [failed] at halts
    have refused := finds.word halts
    have word : left.front.isEnd = false := goesOn
    exact ⟨refused.foundAt.1, by simpa [Parser.found, word] using refused.shown,
      refused.notRepeated⟩

theorem statements_pointsAt {text : String} (failed : statements limit text = .error e) :
    ∃ t ∈ (tokenize text).toList, PointsAt t e := by
  simp only [statements] at failed
  split at failed
  · rename_i refused
    cases failed
    exact (block_findsAt e).pointsAt refused
  · -- What is behind the statements is refused at the first token that the block leaves.
    split at failed <;> cases failed
    have left := (blockMachine limit).run_rest .start (tokenize text)
    obtain ⟨behind, first⟩ := (block limit (tokenize text)).rest.toList_eq_cons
    rw [← block, first] at left
    exact ⟨_, left.subset List.mem_cons_self, rfl, by simp [Fault.found?], by simp [Fault.kind]⟩

end Parser

end RobotLang
