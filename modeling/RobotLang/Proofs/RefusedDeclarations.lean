import RobotLang.Proofs.DescentDeclaration
import RobotLang.Proofs.Faults
import RobotLang.Proofs.Unambiguous

/-!
What a refused declaration leaves in its target. The body is put there as soon as its block has been
read. So the target stays as it was where the declaration is refused at its name, at IS or inside the
block. Where END or the name again is missing behind the block, the target holds the block that has
been read, whatever it held before (`refused_declaration_target`).
-/

namespace RobotLang

/-- END or the name again is missing behind the body of a declaration. -/
def Fault.behindBody : Fault → Bool
  | .keywordDue (.afterInstructionBody _) _ | .closingName .instruction _ _ => true
  | _ => false

namespace Parser

variable {limit : Option Nat} {q : TokenQueue} {t : Token} {e : ParseError} {fault : Fault}
  {found : Found}

theorem BlockFault.behindBody (h : BlockFault found fault) : fault.behindBody = false := by
  cases h <;> rfl

/-- What is found in place of END, or of the name again, behind these words up to a body. -/
inductive LacksBehind (limit : Option Nat) (body : Statement) (found : Found) :
    List String → Fault → Prop
  | endDue {name : String} (fit : DeclarationAt limit (name, body)) :
      LacksBehind limit body found ([name, Keyword.is.text] ++ body.words)
        (.keywordDue (.afterInstructionBody name) found)
  | nameDue {name : String} (fit : DeclarationAt limit (name, body)) :
      LacksBehind limit body found ([name, Keyword.is.text] ++ body.words ++ [Keyword.end.text])
        (.closingName .instruction name found)

theorem LacksBehind.behindBody {body : Statement} {words : List String}
    (h : LacksBehind limit body found words fault) : fault.behindBody = true := by
  cases h <;> rfl

theorem BlockAt.eq_of_words {a b : Statement} {level : Nat} (left : BlockAt limit level a)
    (right : BlockAt limit level b) (same : a.words = b.words) : a = b := by
  obtain ⟨ss, rfl, left, -⟩ := left
  obtain ⟨ts, rfl, right, -⟩ := right
  rw [left.eq_of_words right same]

theorem LacksBehind.unique {a b : Statement} {left right : List String}
    (first : LacksBehind limit a found left fault) (second : LacksBehind limit b found right fault)
    (same : left = right) : a = b := by
  cases first with
  | endDue fit =>
    cases second with
    | endDue fit' => exact fit.2.eq_of_words fit'.2 (List.append_cancel_left same)
  | nameDue fit =>
    cases second with
    | nameDue fit' =>
      have same := List.append_cancel_right same
      exact fit.2.eq_of_words fit'.2 (List.append_cancel_left same)

/-! ## States -/

namespace DeclarationState

variable {s : DeclarationState}

/-- A state that refuses the next token has no body yet, or has one and lacks what is due behind. -/
inductive Refusal (limit : Option Nat) (s : DeclarationState) (t : Token) (fault : Fault) : Prop
  | early (noBody : s.body? limit t = none) (inside : fault.behindBody = false)
  | behind {body : Statement} (hasBody : s.body? limit t = some body)
      (lacks : LacksBehind limit body (Parser.found t) s.consumed fault)

theorem read_taking_error (h : s.read limit t = .halt true (.error e)) : s = .naming := by
  cases s with
  | naming => rfl
  | named | closing =>
    simp only [read] at h
    split at h <;> cases h
  | inBody name b =>
    simp only [read] at h
    split at h
    · cases h
    · cases h
    · split at h <;> cases h

theorem Sound.refusal_at_end (sound : s.Sound limit) (isEnd : t.isEnd = true) :
    Refusal limit s t (s.endFault limit) := by
  have atEnd : Parser.found t = .endOfInput := by simp [Parser.found, isEnd]
  cases s with
  | naming | named => exact .early rfl rfl
  | inBody name b =>
    cases closed : b.endFault? limit with
    | some fault =>
      have inside := (BlockState.blockFault_of_endFault? closed).behindBody
      apply Refusal.early
      · simp [body?, BlockState.closesBefore, isEnd, closed]
      · simpa [endFault, closed] using inside
    | none =>
      obtain ⟨outermost, complete⟩ := BlockState.endFault?_eq_none_iff.mp closed
      have hasBody : (inBody name b).body? limit t = some b.block := by
        simp [body?, BlockState.closesBefore, isEnd, closed]
      apply Refusal.behind hasBody
      rw [consumed, BlockState.consumed_of_complete outermost complete, endFault, closed, atEnd]
      exact .endDue ⟨sound.1, sound.2.blockAt outermost⟩
  | closing name body =>
    apply Refusal.behind rfl
    rw [atEnd]
    exact .nameDue sound

theorem Sound.refusal_at_word {taken : Bool} (sound : s.Sound limit) (word : t.isEnd = false)
    (h : s.read limit t = .halt taken (.error e)) : Refusal limit s t e.fault := by
  have atWord : Parser.found t = .word t.text := by simp [Parser.found, word]
  cases s with
  | naming =>
    simp only [DeclarationState.read] at h
    split at h
    · split at h <;> cases h
      exact .early rfl rfl
    · cases h
      exact .early rfl rfl
  | named name =>
    simp only [DeclarationState.read] at h
    split at h <;> cases h
    exact .early rfl rfl
  | inBody name b =>
    simp only [DeclarationState.read] at h
    split at h
    · cases h
    · rename_i refused
      cases h
      apply Refusal.early
      · simp [body?, BlockState.closesBefore, word, refused]
      · exact (BlockState.blockFault_of_step refused).behindBody
    · rename_i closes
      obtain ⟨outermost, complete, -⟩ := BlockState.step_close closes
      have hasBody : (inBody name b).body? limit t = some b.block := by
        simp [body?, BlockState.closesBefore, word, closes]
      split at h <;> cases h
      apply Refusal.behind hasBody
      rw [consumed, BlockState.consumed_of_complete outermost complete, atWord]
      exact .endDue ⟨sound.1, sound.2.blockAt outermost⟩
  | closing name body =>
    simp only [DeclarationState.read] at h
    split at h <;> cases h
    apply Refusal.behind rfl
    rw [atWord]
    exact .nameDue sound

end DeclarationState

/-! ## Runs -/

/-- What is left of a queue and a target where a declaration is refused. -/
structure LeftByRefusal (q : TokenQueue) (target : Statement) (e : ParseError)
    (after : Store Statement) : Prop where
  kept : e.fault.behindBody = false → after.target = target
  replaced : e.fault.behindBody = true → ∃ words,
    q.texts = Keyword.instruction.text :: words ++ after.queue.texts ∧
      LacksBehind (some nestingLimit) after.target (Parser.found after.queue.front) words e.fault

/-- The target is kept if and only if no body has been read, or the one that has been is what was there. -/
theorem LeftByRefusal.kept_iff {target : Statement} {after : Store Statement}
    (left : LeftByRefusal q target e after) :
    after.target = target ↔ (e.fault.behindBody = true → ∃ words,
      q.texts = Keyword.instruction.text :: words ++ after.queue.texts ∧
        LacksBehind (some nestingLimit) target (Parser.found after.queue.front) words e.fault) := by
  constructor
  · intro same behind
    rw [← same]
    exact left.replaced behind
  · intro read
    cases behind : e.fault.behindBody with
    | false => exact left.kept behind
    | true =>
      obtain ⟨words, split, lacks⟩ := left.replaced behind
      obtain ⟨words', split', lacks'⟩ := read behind
      rw [split] at split'
      exact lacks.unique lacks' (List.cons.inj (List.append_cancel_right split')).2

theorem leftByRefusal_of_run {run : Run DeclarationState (String × Statement)}
    (h : declaration (some nestingLimit) q = .ok run) (refused : run.result = .error e)
    (target : Statement) :
    LeftByRefusal q target e ⟨run.rest, (readBody? (some nestingLimit) run).getD target⟩ := by
  obtain ⟨starts, rfl⟩ := declaration_eq_ok_iff.mp h
  have goesOn := atEnd_eq_false_of_keyword starts
  obtain ⟨taken, left, split, words, moved, stops⟩ :=
    (declarationMachine (some nestingLimit)).run_stops .naming q.dequeue.2
  obtain ⟨sound, read⟩ := DeclarationState.sound_of_moves words moved
  have texts : q.texts = Keyword.instruction.text :: taken.map (·.text) ++ left.texts := by
    simp [TokenQueue.texts, TokenQueue.toList_dequeue goesOn, split, starts]
  rw [← read] at texts
  generalize (declarationMachine (some nestingLimit)).run .naming q.dequeue.2 = run at *
  have refusal : run.state.Refusal (some nestingLimit) left.front e.fault := by
    have front := stops.front
    rw [refused] at front
    rcases front with ⟨isEnd, ended⟩ | ⟨word, taken, halts⟩
    · cases ended
      exact sound.refusal_at_end isEnd
    · exact sound.refusal_at_word word halts
  -- A token is taken with an error only if it is a primitive name, and no body has been read then.
  have kept : run.rest = left ∨ run.state = .naming := by
    cases stops with
    | atEnd | leaving => exact .inl rfl
    | taking _ halts =>
      cases refused
      exact .inr (DeclarationState.read_taking_error halts)
  cases refusal with
  | early noBody inside =>
    refine ⟨fun _ => ?_, fun behind => by simp [inside] at behind⟩
    rcases kept with same | naming
    · simp [readBody?, same, noBody]
    · simp [readBody?, naming, DeclarationState.body?]
  | @behind body hasBody lacks =>
    rcases kept with same | naming
    · refine ⟨fun inside => by simp [lacks.behindBody] at inside, fun _ => ?_⟩
      refine ⟨run.state.consumed, by rw [texts, same], ?_⟩
      simpa [readBody?, same, hasBody] using lacks
    · rw [naming] at hasBody
      cases hasBody

theorem leftByRefusal_of_instruction {fuel : Nat} {target : Statement} {after : Store Statement}
    (enough : q.length ≤ fuel)
    (refused : Descent.instruction fuel ⟨q, target⟩ = .refused e after) :
    LeftByRefusal q target e after := by
  have short : q.tokens.length ≤ fuel := Nat.le_of_lt enough
  rw [instruction_eq_run short] at refused
  cases parsed : declaration (some nestingLimit) q with
  | error violation => simp [parsed] at refused
  | ok run =>
    simp only [parsed, Run.bodyOutcome] at refused
    split at refused
    · cases refused
    · rename_i result
      cases refused
      exact leftByRefusal_of_run parsed result target

end Parser

/-! ## Registers -/

namespace Workbench

variable {w after : Workbench} {target : String} {e : ParseError}

/-- Where a declaration is refused, its body is still written to the register, if there is one. -/
theorem parseInstruction_refused
    (h : w.apply (.parseInstruction target) = .ok (.error e, after)) :
    ∃ run, Parser.declaration (some Parser.nestingLimit) w.queue = .ok run ∧
      run.result = .error e ∧ after.queue = run.rest ∧ after.programs = w.programs ∧
      ∀ other, after.statement other =
        if other = target then
          (Parser.readBody? (some Parser.nestingLimit) run).getD (w.statement target)
        else w.statement other := by
  obtain ⟨run, parsed, h⟩ := ok_of_bind h
  cases result : run.result with
  | ok declared =>
    rw [result] at h
    cases h
  | error fault =>
    rw [result] at h
    cases h
    refine ⟨run, parsed, result, ?_⟩
    cases Parser.readBody? (some Parser.nestingLimit) run with
    | none => exact ⟨rfl, rfl, fun other => by split <;> simp_all [statement]⟩
    | some body => exact ⟨rfl, rfl, fun other => statement_setStatement _ target other body⟩

theorem leftByRefusal_of_parseInstruction
    (h : w.apply (.parseInstruction target) = .ok (.error e, after)) :
    Parser.LeftByRefusal w.queue (w.statement target) e ⟨after.queue, after.statement target⟩ ∧
      after.programs = w.programs ∧
      ∀ other, other ≠ target → after.statement other = w.statement other := by
  obtain ⟨run, parsed, result, queue, programs, statements⟩ := parseInstruction_refused h
  refine ⟨?_, programs, fun other differs => by rw [statements, if_neg differs]⟩
  rw [queue, statements, if_pos rfl]
  exact Parser.leftByRefusal_of_run parsed result (w.statement target)

end Workbench

namespace Parser

/-- A refused declaration keeps its target unless it is refused behind its body, and then leaves the
body there. So the target is what it was if and only if it is refused earlier, or that body was there
before. -/
theorem refused_declaration_target (q : TokenQueue) (target : Statement) (e : ParseError) :
    (∀ (fuel : Nat) (after : Store Statement), q.length ≤ fuel →
      Descent.instruction fuel ⟨q, target⟩ = .refused e after →
        LeftByRefusal q target e after ∧
        (after.target = target ↔ (e.fault.behindBody = true → ∃ words,
          q.texts = Keyword.instruction.text :: words ++ after.queue.texts ∧
            LacksBehind (some nestingLimit) target (found after.queue.front) words e.fault))) ∧
    ∀ (w after : Workbench) (name : String), w.queue = q → w.statement name = target →
      w.apply (.parseInstruction name) = .ok (.error e, after) →
        LeftByRefusal q target e ⟨after.queue, after.statement name⟩ ∧
        after.programs = w.programs ∧
        ∀ other, other ≠ name → after.statement other = w.statement other := by
  constructor
  · intro fuel after enough refused
    have left := leftByRefusal_of_instruction enough refused
    exact ⟨left, left.kept_iff⟩
  · rintro w after name rfl rfl refused
    exact Workbench.leftByRefusal_of_parseInstruction refused

/-- Refused inside the block, and refused for another name behind it. -/
theorem refused_declaration_target_inside_and_behind :
    (∃ e after, Descent.instruction 6 ⟨.ofTexts ["INSTRUCTION", "a", "IS", "move", "IF"],
        .call "skip"⟩ = .refused e after ∧ after.target = .call "skip") ∧
    (∃ e after, Descent.instruction 7 ⟨.ofTexts ["INSTRUCTION", "a", "IS", "move", "END", "b"],
        .call "skip"⟩ = .refused e after ∧ e.fault.behindBody = true ∧ ∃ words,
      ["INSTRUCTION", "a", "IS", "move", "END", "b", endOfInput] =
        Keyword.instruction.text :: words ++ after.queue.texts ∧
      LacksBehind (some nestingLimit) after.target (found after.queue.front) words e.fault) ∧
    ∃ e after, (⟨.ofTexts ["INSTRUCTION", "a", "IS"], .empty, .empty⟩ : Workbench).apply
        (.parseInstruction "s") = .ok (.error e, after) ∧
      LeftByRefusal (.ofTexts ["INSTRUCTION", "a", "IS"]) .empty e
        ⟨after.queue, after.statement "s"⟩ := by
  have inside : Descent.instruction 6 ⟨.ofTexts ["INSTRUCTION", "a", "IS", "move", "IF"],
      .call "skip"⟩ = .refused ⟨.conditionDue .«if» .endOfInput, none⟩ ⟨.empty, .call "skip"⟩ := by
    decide +kernel
  have behind : Descent.instruction 7 ⟨.ofTexts ["INSTRUCTION", "a", "IS", "move", "END", "b"],
      .call "skip"⟩ = .refused ⟨.closingName .instruction "a" (.word "b"), none⟩
        ⟨.ofTexts ["b"], .block [.call "move"]⟩ := by decide +kernel
  have written : (⟨.ofTexts ["INSTRUCTION", "a", "IS"], .empty, .empty⟩ : Workbench).apply
      (.parseInstruction "s") =
        .ok (.error ⟨.keywordDue (.afterInstructionBody "a") .endOfInput, none⟩,
          ⟨.empty, Registers.empty.set "s" .empty, .empty⟩) := rfl
  have kept := ((refused_declaration_target _ _ _).1 6 _ (by decide) inside).1.kept rfl
  have replaced := ((refused_declaration_target _ _ _).1 7 _ (by decide) behind).1.replaced rfl
  have register := ((refused_declaration_target _ _ _).2 _ _ "s" rfl rfl written).1
  exact ⟨⟨_, _, inside, kept⟩, ⟨_, _, behind, rfl, replaced⟩, ⟨_, _, written, register⟩⟩

/-- Not every refused declaration keeps its target. -/
theorem refused_declaration_not_kept :
    ¬ ∀ (q : TokenQueue) (fuel : Nat) (target : Statement) (e : ParseError)
        (after : Store Statement), q.length ≤ fuel → q.front.text = Keyword.instruction.text →
      Descent.instruction fuel ⟨q, target⟩ = .refused e after → after.target = target := by
  intro kept
  have behind : Descent.instruction 7 ⟨.ofTexts ["INSTRUCTION", "a", "IS", "move", "END", "b"],
      .call "skip"⟩ = .refused ⟨.closingName .instruction "a" (.word "b"), none⟩
        ⟨.ofTexts ["b"], .block [.call "move"]⟩ := by decide +kernel
  have same : Statement.block [.call "move"] = .call "skip" :=
    kept _ 7 _ _ _ (by decide) rfl behind
  cases same

end Parser

end RobotLang
