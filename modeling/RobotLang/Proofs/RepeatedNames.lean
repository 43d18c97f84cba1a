import RobotLang.Proofs.Acceptance
import RobotLang.Proofs.Faults

/-!
Repeated instruction names. A queue is refused for a repeated name exactly if it begins as a program
does, up to a complete declaration with the name of an earlier one (`RepeatsName`). The bodies do not
matter, nor does anything behind that declaration: it is taken as a whole, and the error is where it
begins (`repeated_name_refused`).
-/

namespace RobotLang.Parser

open Statement

variable {limit : Option Nat} {name : String} {declarations : List (String × Statement)}
  {last : String × Statement}

/-! ## Programs up to a repeated name -/

/-- Each declaration can stand in a program, and only the last one has a name that repeats. -/
structure Repetition (limit : Option Nat) (name : String) (declarations : List (String × Statement))
    (last : String × Statement) : Prop where
  named : isIdentifier name = true
  fit : ∀ d ∈ declarations ++ [last], DeclarationAt limit d
  distinct : (declarations.map (·.1)).Nodup
  old : last.1 ∈ declarations.map (·.1)

namespace Repetition

theorem unlimited (r : Repetition limit name declarations last) :
    Repetition none name declarations last :=
  ⟨r.named, fun d mem => ⟨(r.fit d mem).1, (r.fit d mem).2.unlimited⟩, r.distinct, r.old⟩

theorem endOfInput_not_mem (r : Repetition limit name declarations last) :
    endOfInput ∉ headWords name declarations ++ declarationWords last := by
  have name := (ne_endOfInput_of_isIdentifier r.named).symm
  have declared : ∀ d ∈ declarations ++ [last], endOfInput ∉ declarationWords d :=
    fun d mem => endOfInput_not_mem_declarationWords (r.fit d mem)
  simp only [List.forall_mem_append, List.forall_mem_singleton] at declared
  simpa [headWords, name, declared.2, (Keyword.text_ne_endOfInput _).symm] using declared.1

theorem moves (r : Repetition limit name declarations last) {head ts : List Token}
    (headTexts : head.map (·.text) = headWords name declarations)
    (texts : ts.map (·.text) = declarationWords last) :
    ∃ opening inside closing, ts = opening :: inside ++ [closing] ∧
      (programMachine limit).moves .start (head ++ opening :: inside) =
        .shift (.inDeclaration name declarations.reverse opening.span (.closing last.1 last.2)) ∧
      (programMachine limit).onWord
          (.inDeclaration name declarations.reverse opening.span (.closing last.1 last.2)) closing =
        .halt true (.error ⟨.duplicateInstruction last.1, opening.span⟩) := by
  have unlimited := r.unlimited.fit
  have allows : ∀ d ∈ declarations ++ [last], Allows limit d.2.depth :=
    fun d mem => (r.fit d mem).2.allows
  simp only [List.forall_mem_append, List.forall_mem_singleton] at unlimited allows
  obtain ⟨opening, inside, closing, rfl, same, opened⟩ :=
    opened_reading limit name declarations.reverse unlimited.2 texts
  refine ⟨opening, inside, closing, rfl, ?_, ?_⟩
  · cases (head_reading limit r.named unlimited.1 headTexts).append opened with
    | through _ _ moved => exact moved
    | tooDeep deep => exact absurd allows deep
    | repeated old => exact absurd ⟨r.distinct, trivial⟩ old
  · exact ProgramState.read_repeated limit opening.span same (by simpa using r.old)

end Repetition

/-! ## Refusing them -/

theorem refused_of_repetition (r : Repetition limit name declarations last) {q : TokenQueue}
    (begins : headWords name declarations ++ declarationWords last <+: q.texts) :
    ∃ head opening inside left, q.toList = head ++ opening :: inside ++ left.toList ∧
      head.map (·.text) = headWords name declarations ∧
      (opening :: inside).map (·.text) = declarationWords last ∧
      (program limit q).result = .error ⟨.duplicateInstruction last.1, opening.span⟩ ∧
      (program limit q).rest = left := by
  obtain ⟨taken, left, split, texts⟩ := TokenQueue.split_of_prefix begins r.endOfInput_not_mem
  have words := Token.isEnd_of_texts texts r.endOfInput_not_mem
  obtain ⟨head, ts, rfl, headTexts, lastTexts⟩ := List.map_eq_append_iff.mp texts
  obtain ⟨opening, inside, closing, rfl, moved, halts⟩ := r.moves headTexts lastTexts
  refine ⟨head, opening, inside ++ [closing], left, split, headTexts, lastTexts, ?_⟩
  rw [← List.append_assoc] at split
  rw [← List.append_assoc, List.forall_mem_append, List.forall_mem_singleton] at words
  rw [program, Machine.run_of_taken split words.1 words.2 moved halts]
  exact ⟨rfl, rfl⟩

theorem repetition_of_refused {q : TokenQueue} {e : ParseError}
    (refused : (program limit q).result = .error e)
    (kind : e.fault.kind = .duplicateInstruction) :
    ∃ name declarations last, Repetition limit name declarations last ∧
      headWords name declarations ++ declarationWords last <+: q.texts := by
  obtain ⟨taken, left, split, words, moved, stops⟩ := (programMachine limit).run_stops .start q
  obtain ⟨sound, read⟩ := ProgramState.sound_of_moves words moved
  rw [program] at refused
  generalize (programMachine limit).run .start q = run at *
  -- Only a word that completes a declaration comes to this error.
  rcases stops.front with ⟨-, comes⟩ | ⟨-, _, halts⟩
  · exact absurd kind (program_onEnd_error (comes.trans refused)).2.notRepeated
  rw [refused] at halts
  rcases ProgramState.read_error halts with here | repeats
  · exact absurd kind here.notRepeated
  generalize run.state = s at *
  cases repeats with
  | @repeats name instruction declared body place d accepted old =>
    obtain ⟨⟨named, fit, distinct⟩, inside⟩ := sound
    obtain ⟨-, fits, declaration⟩ := inside.read_ok accepted
    refine ⟨name, declared.reverse, (instruction, body), ⟨named, ?_, ?_, ?_⟩, ?_⟩
    · simp only [List.forall_mem_append, List.forall_mem_singleton, List.mem_reverse]
      exact ⟨fit, fits⟩
    · exact nodup_names_reverse.mpr distinct
    · simpa using ProgramState.isDeclared_iff.mp old
    · obtain ⟨behind, front⟩ := left.toList_eq_cons
      refine ⟨behind.map (·.text), ?_⟩
      rw [TokenQueue.texts, split, List.map_append, ← read, front, ← declaration]
      simp [ProgramState.consumed]

/-! ## The repeated name -/

/-- The queue begins as a program does, up to a declaration with the name of an earlier one. -/
structure RepeatsName (q : TokenQueue) (name : String) (declarations : List (String × Statement))
    (last : String × Statement) : Prop where
  named : isIdentifier name = true
  declared : ∀ d ∈ declarations ++ [last], (isIdentifier d.1 = true ∧ isPrimitive d.1 = false) ∧
    d.2.kind = .block ∧ d.2.WellShaped ∧ d.2.depth ≤ nestingLimit
  distinct : (declarations.map (·.1)).Nodup
  old : last.1 ∈ declarations.map (·.1)
  begins : headWords name declarations ++ declarationWords last <+: q.texts

theorem repeatsName_iff {q : TokenQueue} :
    RepeatsName q name declarations last ↔
      Repetition (some nestingLimit) name declarations last ∧
        headWords name declarations ++ declarationWords last <+: q.texts := by
  constructor
  · rintro ⟨named, declared, distinct, old, begins⟩
    simp only [← blockAt_some_iff, ← isInstructionName_iff] at declared
    exact ⟨⟨named, declared, distinct, old⟩, begins⟩
  · rintro ⟨⟨named, fit, distinct, old⟩, begins⟩
    simp only [DeclarationAt, blockAt_some_iff, isInstructionName_iff] at fit
    exact ⟨named, fit, distinct, old, begins⟩

/-- A queue that repeats a name is refused for it, at the INSTRUCTION of the declaration that does, and
what follows this declaration is left, whatever it is. No other queue is refused for a repeated
name. -/
theorem repeated_name_refused (q : TokenQueue) :
    (∀ name declarations last, RepeatsName q name declarations last →
      ∃ opening, q.toList[(headWords name declarations).length]? = some opening ∧
        opening.text = Keyword.instruction.text ∧
        (program (some nestingLimit) q).result =
          .error ⟨.duplicateInstruction last.1, opening.span⟩ ∧
        (program (some nestingLimit) q).rest.toList =
          q.toList.drop (headWords name declarations ++ declarationWords last).length) ∧
    ∀ e, (program (some nestingLimit) q).result = .error e →
      e.fault.kind = .duplicateInstruction →
      ∃ name declarations last, RepeatsName q name declarations last := by
  constructor
  · intro name declarations last repeats
    obtain ⟨r, begins⟩ := repeatsName_iff.mp repeats
    obtain ⟨head, opening, inside, left, split, headTexts, lastTexts, refused, rest⟩ :=
      refused_of_repetition r begins
    refine ⟨opening, ?_, (List.cons.inj lastTexts).1, refused, ?_⟩
    · simp [split, ← headTexts]
    · rw [rest, split, ← headTexts, ← lastTexts, ← List.map_append, List.length_map,
        List.drop_left]
  · intro e refused kind
    obtain ⟨name, declarations, last, repeats⟩ := repetition_of_refused refused kind
    exact ⟨name, declarations, last, repeatsName_iff.mpr repeats⟩

/-- A name that repeats on the third line, before a word that no program has. -/
theorem repeated_name_refused_third_line :
    let q := tokenize "PROGRAM p IS\nINSTRUCTION a IS END a\nINSTRUCTION a IS move END a ?"
    (program (some nestingLimit) q).result =
        .error ⟨.duplicateInstruction "a", some ⟨3, 1, 36⟩⟩ ∧
      ∃ name declarations last, RepeatsName q name declarations last := by
  intro q
  have repeats : RepeatsName q "p" [("a", .block [])] ("a", .block [.call "move"]) := by
    have move : Body [.call "move"] := .call (by decide +kernel) .nil
    refine ⟨by decide +kernel, ?_, by decide, by decide, by decide +kernel⟩
    rw [List.singleton_append, List.forall_mem_cons, List.forall_mem_singleton]
    exact ⟨⟨by decide +kernel, rfl, wellShaped_block_iff.mpr .nil, by decide⟩,
      ⟨by decide +kernel, rfl, wellShaped_block_iff.mpr move, by decide⟩⟩
  obtain ⟨refuses, only⟩ := repeated_name_refused q
  obtain ⟨opening, place, -, refused, -⟩ := refuses _ _ _ repeats
  have there : q.toList[(headWords "p" [("a", .block [])]).length]? =
      some ⟨"INSTRUCTION", some ⟨3, 1, 36⟩⟩ := by decide +kernel
  rw [there] at place
  cases place
  exact ⟨refused, only _ refused rfl⟩

end RobotLang.Parser
