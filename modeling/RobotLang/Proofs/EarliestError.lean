import RobotLang.Proofs.Completion
import RobotLang.Proofs.Faults
import RobotLang.Proofs.ProgramWords

/-!
Errors are found at the earliest token. Up to the place of an error the words begin some sentence of
the grammar, and with the word at that place they begin none (`error_earliest`). The sentences are
those of the grammar with all that is demanded of names, except that instruction names differ; and
there is no limit to nesting. These two are checked later than they could be, and their errors are
left out.
-/

namespace RobotLang.Parser

open Statement

/-! ## Sentences -/

/-- Programs and the end of the input. Instruction names may repeat. -/
def ProgramSentence (words : List String) : Prop :=
  ∃ name declarations body, words = programWords name declarations body ++ [endOfInput] ∧
    isIdentifier name = true ∧
    (∀ d ∈ declarations, (isIdentifier d.1 = true ∧ isPrimitive d.1 = false) ∧
      d.2.kind = .block ∧ d.2.WellShaped) ∧
    body.kind = .block ∧ body.WellShaped

/-- Blocks and the end of the input. -/
def BlockSentence (words : List String) : Prop :=
  ∃ body : Statement, words = body.words ++ [endOfInput] ∧ body.kind = .block ∧ body.WellShaped

theorem programSentence_iff {words : List String} :
    ProgramSentence words ↔ ∃ name declarations body,
      words = programWords name declarations body ++ [endOfInput] ∧ isIdentifier name = true ∧
        (∀ d ∈ declarations, DeclarationAt none d) ∧ BlockAt none 0 body := by
  simp only [ProgramSentence, DeclarationAt, blockAt_none_iff, isInstructionName_iff]

theorem blockSentence_iff {words : List String} :
    BlockSentence words ↔ ∃ body, words = wordsAll body ++ [endOfInput] ∧ Body body := by
  constructor
  · rintro ⟨_, rfl, isBlock, shaped⟩
    have block : BlockAt none 0 _ := blockAt_none_iff.mpr ⟨isBlock, shaped⟩
    obtain ⟨body, rfl, shaped, -⟩ := block
    exact ⟨body, rfl, shaped⟩
  · rintro ⟨body, rfl, shaped⟩
    exact ⟨.block body, rfl, rfl, wellShaped_block_iff.mpr shaped⟩

/-- The words begin a sentence. -/
def Viable (sentences : List String → Prop) (words : List String) : Prop :=
  ∃ more, sentences (words ++ more)

/-- The error is at the first token with which the words begin no sentence, and the tokens from
there on are left; a primitive name alone has been taken. -/
def EarliestAt (sentences : List String → Prop) (q : TokenQueue) (e : ParseError)
    (rest : TokenQueue) : Prop :=
  ∃ i t, q.toList[i]? = some t ∧ e.span = t.span ∧
    Viable sentences (q.texts.take i) ∧ ¬ Viable sentences (q.texts.take (i + 1)) ∧
    rest.toList = q.toList.drop (if e.fault.kind = .primitiveName then i + 1 else i)

variable {σ α : Type} {m : Machine σ α} {start s : σ} {sentences : List String → Prop}
  {ts : List Token} {t : Token} {e : ParseError}

theorem earliestAt_of_split {q left rest : TokenQueue} (split : q.toList = ts ++ left.toList)
    (place : e.span = left.front.span) (viable : Viable sentences (ts.map (·.text)))
    (dead : ¬ Viable sentences (ts.map (·.text) ++ [left.front.text]))
    (stays : rest.toList = left.toList.drop (if e.fault.kind = .primitiveName then 1 else 0)) :
    EarliestAt sentences q e rest := by
  obtain ⟨behind, front⟩ := left.toList_eq_cons
  refine ⟨ts.length, left.front, ?_, place, ?_, ?_, ?_⟩
  · simp [split, front]
  · simpa [TokenQueue.texts, split] using viable
  · have length : ts.length = (ts.map (·.text)).length := by simp
    rw [TokenQueue.texts, split, List.map_append, front, length, List.take_length_add_append]
    exact dead
  · rw [stays, split]
    split <;> simp

/-! ## Machines that recognize sentences -/

/-- What becomes of a sentence is settled up to its depth and its names, and at its end the machine
accepts. -/
structure Machine.Recognizes (m : Machine σ α) (start : σ) (sentences : List String → Prop) :
    Prop where
  closed : ∀ ws, sentences ws → ∃ us, ws = us ++ [endOfInput] ∧ endOfInput ∉ us
  reads : ∀ ts : List Token, sentences (ts.map (·.text) ++ [endOfInput]) →
    ∃ next fits distinct, m.Reading start ts next fits distinct ∧
      ∀ place, ∃ a, m.onEnd next place = .ok a

/-- The error is one of the two that are not found as early as possible. -/
def Deferred (e : ParseError) : Prop :=
  e.fault.kind = .nestingTooDeep ∨ e.fault.kind = .duplicateInstruction

theorem whole_or_before {before more us : List String} {last : String}
    (h : before ++ more = us ++ [last]) :
    before = us ++ [last] ∨ ∃ between, us = before ++ between ∧ more = between ++ [last] := by
  rcases List.append_eq_append_iff.mp h with ⟨between, same, tail⟩ | ⟨between, same, tail⟩
  · exact .inr ⟨between, same, tail⟩
  · cases between with
    | nil => exact .inr ⟨[], by simpa using same.symm, tail.symm⟩
    | cons w ws =>
      obtain ⟨rfl, nothing⟩ := List.cons.inj tail
      obtain ⟨rfl, -⟩ := List.append_eq_nil_iff.mp nothing.symm
      exact .inl same

namespace Machine.Recognizes

theorem dead_of_halt {taken : Bool} {result : Except ParseError α}
    (r : m.Recognizes start sentences) (moved : m.moves start ts = .shift s)
    (word : t.isEnd = false) (halts : m.onWord s t = .halt taken result)
    (prompt : ∀ e, result = .error e → ¬ Deferred e) :
    ¬ Viable sentences (ts.map (·.text) ++ [t.text]) := by
  rintro ⟨more, sentence⟩
  obtain ⟨us, whole, absent⟩ := r.closed _ sentence
  rcases whole_or_before whole with same | ⟨between, -, rfl⟩
  · have last := (List.append_inj' same rfl).2
    exact absurd (List.cons.inj last).1 (Token.isEnd_eq_false.mp word)
  -- Any tokens with the words of the sentence will do, and the machine halts among them.
  let tokens := ts ++ t :: between.map (⟨·, none⟩)
  have texts : tokens.map (·.text) = ts.map (·.text) ++ [t.text] ++ between := by
    simp [tokens, Function.comp_def]
  have halted : m.moves start tokens = .halt taken result := by
    rw [moves_append_of_shift moved]
    simp only [moves, halts]
  rw [← List.append_assoc, ← texts] at sentence
  obtain ⟨next, fits, distinct, reading, -⟩ := r.reads tokens sentence
  cases reading with
  | through _ _ through =>
    rw [halted] at through
    cases through
  | tooDeep _ refused kind =>
    rw [halted] at refused
    cases refused
    exact prompt _ rfl (.inl kind)
  | repeated _ refused kind =>
    rw [halted] at refused
    cases refused
    exact prompt _ rfl (.inr kind)

theorem dead_of_end {place : Option Span} (r : m.Recognizes start sentences)
    (moved : m.moves start ts = .shift s) (failed : m.onEnd s place = .error e) :
    ¬ Viable sentences (ts.map (·.text) ++ [endOfInput]) := by
  rintro ⟨more, sentence⟩
  obtain ⟨us, whole, absent⟩ := r.closed _ sentence
  rcases whole_or_before whole with same | ⟨between, rfl, -⟩
  · rw [whole, ← same] at sentence
    obtain ⟨next, fits, distinct, reading, accepts⟩ := r.reads ts sentence
    cases reading with
    | through _ _ through =>
      rw [moved] at through
      cases through
      obtain ⟨a, accepted⟩ := accepts place
      rw [failed] at accepted
      cases accepted
    | tooDeep _ refused =>
      rw [moved] at refused
      cases refused
    | repeated _ refused =>
      rw [moved] at refused
      cases refused
  · simp at absent

end Machine.Recognizes

variable {limit : Option Nat} {q : TokenQueue}

theorem program_recognizes : (programMachine limit).Recognizes .start ProgramSentence where
  closed := by
    intro words sentence
    obtain ⟨name, declarations, body, rfl, named, fit, inside⟩ := programSentence_iff.mp sentence
    exact ⟨_, rfl, endOfInput_not_mem_programWords named fit inside⟩
  reads := by
    intro ts sentence
    obtain ⟨name, declarations, body, same, named, fit, inside⟩ := programSentence_iff.mp sentence
    have words := (List.append_inj' same rfl).1
    exact ⟨_, _, _, program_reading limit named fit inside words, fun place => ⟨_, rfl⟩⟩

theorem block_recognizes : (blockMachine limit).Recognizes .start BlockSentence where
  closed := by
    intro words sentence
    obtain ⟨body, rfl, shaped⟩ := blockSentence_iff.mp sentence
    exact ⟨_, rfl, endOfInput_not_mem_wordsAll shaped⟩
  reads := by
    intro ts sentence
    obtain ⟨body, same, shaped⟩ := blockSentence_iff.mp sentence
    have words := (List.append_inj' same rfl).1
    have complete : (⟨[], body.reverse, .statement⟩ : BlockState).endFault? limit = none :=
      BlockState.endFault?_eq_none_iff.mpr ⟨rfl, rfl⟩
    have accepts : ∀ place, ∃ a,
        (blockMachine limit).onEnd ⟨[], body.reverse, .statement⟩ place = .ok a := by
      simp [blockMachine, complete]
    exact ⟨_, _, _, block_reading limit shaped words, accepts⟩

/-! ## What has been read begins a sentence -/

theorem ProgramState.Sound.viable {s : ProgramState} (sound : s.Sound limit) :
    Viable ProgramSentence s.consumed := by
  obtain ⟨ws, name, declarations, body, named, fit, inside, words⟩ := sound.completes
  refine ⟨ws ++ [endOfInput], programSentence_iff.mpr
    ⟨name, declarations, body, ?_, named, fit, inside⟩⟩
  rw [← List.append_assoc, words]

theorem BlockState.Sound.viable {s : BlockState} (sound : s.Sound limit) :
    Viable BlockSentence s.consumed := by
  obtain ⟨ws, body, shaped, words⟩ := sound.unlimited.completes
  refine ⟨ws ++ [endOfInput], blockSentence_iff.mpr ⟨body, ?_, shaped⟩⟩
  rw [← List.append_assoc, words]

/-! ## Errors -/

theorem Machine.Recognizes.earliest {run : Run σ α} {left : TokenQueue}
    (r : m.Recognizes start sentences) (finds : m.FindsAt e) (split : q.toList = ts ++ left.toList)
    (moved : m.moves start ts = .shift run.state) (stops : m.Stops left run)
    (viable : Viable sentences (ts.map (·.text))) (failed : run.result = .error e)
    (prompt : ¬ Deferred e) : EarliestAt sentences q e run.rest := by
  cases stops with
  | atEnd ended =>
    obtain ⟨place, ordinary⟩ := finds.ending failed
    have front : left.front.text = endOfInput := by
      simpa [TokenQueue.atEnd, Token.isEnd] using ended
    refine earliestAt_of_split split place viable ?_ (by simp [ordinary.notPrimitive])
    rw [front]
    exact r.dead_of_end moved failed
  | leaving goesOn halts =>
    cases failed
    obtain ⟨place, ordinary⟩ := (finds.word halts).foundAt
    have dead := r.dead_of_halt moved goesOn halts fun _ same => by cases same; exact prompt
    refine earliestAt_of_split split place viable dead ?_
    rw [if_neg (fun primitive => Bool.false_ne_true (ordinary.mpr primitive))]
    rfl
  | taking goesOn halts =>
    cases failed
    obtain ⟨place, primitive⟩ := (finds.word halts).foundAt
    have dead := r.dead_of_halt moved goesOn halts fun _ same => by cases same; exact prompt
    refine earliestAt_of_split split place viable dead ?_
    rw [if_pos (primitive.mp rfl), TokenQueue.toList_dequeue goesOn]
    rfl

theorem program_error_earliest (failed : (program limit q).result = .error e)
    (prompt : ¬ Deferred e) : EarliestAt ProgramSentence q e (program limit q).rest := by
  obtain ⟨taken, left, split, words, moved, stops⟩ := (programMachine limit).run_stops .start q
  obtain ⟨sound, read⟩ := ProgramState.sound_of_moves words moved
  have finds : (programMachine limit).FindsAt e :=
    program_findsAt fun repeats => prompt (.inr repeats)
  exact program_recognizes.earliest finds split moved stops (read ▸ sound.viable) failed prompt

theorem block_error_earliest (failed : (Parser.block limit q).result = .error e)
    (prompt : ¬ Deferred e) : EarliestAt BlockSentence q e (Parser.block limit q).rest := by
  obtain ⟨taken, left, split, words, moved, stops⟩ := (blockMachine limit).run_stops .start q
  obtain ⟨sound, read⟩ := BlockState.sound_of_moves words moved
  exact block_recognizes.earliest (block_findsAt e) split moved stops (read ▸ sound.viable) failed
    prompt

/-- A block that is complete before the end of the input is followed by a word that cannot follow
it. -/
theorem trailing_earliest {b : Statement} (accepted : (Parser.block limit q).result = .ok b)
    (goesOn : (Parser.block limit q).rest.front.isEnd = false)
    (place : e.span = (Parser.block limit q).rest.front.span)
    (ordinary : e.fault.kind ≠ .primitiveName) :
    EarliestAt BlockSentence q e (Parser.block limit q).rest := by
  obtain ⟨taken, left, split, words, moved, stops⟩ := (blockMachine limit).run_stops .start q
  obtain ⟨sound, read⟩ := BlockState.sound_of_moves words moved
  have viable := read ▸ sound.viable
  rw [Parser.block] at accepted goesOn place ⊢
  generalize (blockMachine limit).run .start q = run at *
  cases stops with
  | atEnd ended =>
    rw [TokenQueue.atEnd, goesOn] at ended
    cases ended
  | leaving _ halts =>
    cases accepted
    have dead := block_recognizes.dead_of_halt moved goesOn halts fun _ same => by cases same
    exact earliestAt_of_split split place viable dead (by simp [ordinary])
  | taking _ halts =>
    simp only [blockMachine] at halts
    split at halts <;> cases halts

theorem statements_error_earliest {text : String} (failed : statements limit text = .error e)
    (prompt : ¬ Deferred e) :
    EarliestAt BlockSentence (tokenize text) e (Parser.block limit (tokenize text)).rest := by
  simp only [statements] at failed
  split at failed
  · rename_i refused
    cases failed
    exact block_error_earliest refused prompt
  · rename_i accepted
    split at failed
    · cases failed
    · rename_i goesOn
      cases failed
      exact trailing_earliest accepted (by simpa using goesOn) rfl (by simp [Fault.kind])

/-- Errors are found at the first token that no sentence can have there, but for repeated names and
for nesting. -/
theorem error_earliest {text : String} (unrepeated : e.fault.kind ≠ .duplicateInstruction)
    (shallow : e.fault.kind ≠ .nestingTooDeep) :
    (Program.parse text = .error e →
      EarliestAt ProgramSentence (tokenize text) e
        (program (some nestingLimit) (tokenize text)).rest) ∧
    (Statement.parse text = .error e →
      EarliestAt BlockSentence (tokenize text) e
        (Parser.block (some nestingLimit) (tokenize text)).rest) := by
  have prompt : ¬ Deferred e := fun deferred => deferred.elim shallow unrepeated
  exact ⟨fun failed => program_error_earliest failed prompt,
    fun failed => statements_error_earliest failed prompt⟩

theorem error_earliest_named_and_trailing :
    (∃ e, Program.parse "PROGRAM P IS INSTRUCTION move" = .error e ∧
      e.fault.kind = .primitiveName ∧
      EarliestAt ProgramSentence (tokenize "PROGRAM P IS INSTRUCTION move") e
        (program (some nestingLimit) (tokenize "PROGRAM P IS INSTRUCTION move")).rest) ∧
    ∃ e, Statement.parse "move END" = .error e ∧ e.fault.kind = .trailingContent ∧
      EarliestAt BlockSentence (tokenize "move END") e
        (Parser.block (some nestingLimit) (tokenize "move END")).rest := by
  have named : Program.parse "PROGRAM P IS INSTRUCTION move" =
      .error ⟨.primitiveName "move", some ⟨1, 26, 25⟩⟩ := by rfl
  have trailing : Statement.parse "move END" =
      .error ⟨.afterStatements (.word "END"), some ⟨1, 6, 5⟩⟩ := by rfl
  exact ⟨⟨_, named, rfl, (error_earliest (by decide) (by decide)).1 named⟩,
    ⟨_, trailing, rfl, (error_earliest (by decide) (by decide)).2 trailing⟩⟩

end RobotLang.Parser
