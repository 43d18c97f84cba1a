import RobotLang.Proofs.Context
import RobotLang.Proofs.ProgramWords

/-!
Which queues are programs. A queue is accepted as a program exactly if its words up to some end
token are the words of that program, and the program has what is demanded beyond its words:
identifiers as names, instruction names that are not primitive and differ, and bodies within the
nesting limit (`program_accepts_iff`).
-/

namespace RobotLang.Parser

open Statement

variable {limit : Option Nat} {p : Program} {declarations : List (String × Statement)}

theorem nodup_names_reverse :
    (declarations.reverse.map (·.1)).Nodup ↔ (declarations.map (·.1)).Nodup :=
  ((List.reverse_perm declarations).map (·.1)).nodup_iff

/-- The program can be written with these declarations, in this order. -/
structure WrittenWith (limit : Option Nat) (p : Program)
    (declarations : List (String × Statement)) : Prop where
  named : isIdentifier p.name = true
  fit : ∀ d ∈ declarations, DeclarationAt limit d
  distinct : (declarations.map (·.1)).Nodup
  declares : p.context.entries.Perm declarations
  body : BlockAt limit 0 p.body

theorem program_of_words {q left : TokenQueue} {ts : List Token}
    (written : WrittenWith limit p declarations) (split : q.toList = ts ++ left.toList)
    (texts : ts.map (·.text) = programWords p.name declarations p.body)
    (ended : left.atEnd = true) :
    program limit q = ⟨.complete p.name declarations.reverse p.body, .ok p, left⟩ := by
  have unlimited : ∀ d ∈ declarations, DeclarationAt none d :=
    fun d mem => ⟨(written.fit d mem).1, (written.fit d mem).2.unlimited⟩
  have fits : (∀ d ∈ declarations, Allows limit d.2.depth) ∧ Allows limit p.body.depth :=
    ⟨fun d mem => (written.fit d mem).2.allows, written.body.allows⟩
  have words := Token.isEnd_of_texts texts
    (endOfInput_not_mem_programWords written.named written.fit written.body)
  have context : Context.ofEntries declarations.reverse = p.context := by
    rw [Context.ofEntries_eq_iff (nodup_names_reverse.mpr written.distinct)]
    exact written.declares.trans (List.reverse_perm declarations).symm
  cases program_reading limit written.named unlimited written.body.unlimited texts with
  | through _ _ moved =>
    rw [program, Machine.run_of_moves split words moved, Machine.run_of_atEnd ended,
      ProgramState.onEnd_ok_iff.mpr (ProgramState.finish_ok_iff.mpr ⟨_, rfl, context.symm⟩)]
  | tooDeep deep => exact absurd fits deep
  | repeated old => exact absurd written.distinct old

theorem words_of_program {q : TokenQueue} (accepted : (program limit q).result = .ok p) :
    ∃ declarations ts, WrittenWith limit p declarations ∧
      q.toList = ts ++ (program limit q).rest.toList ∧
      ts.map (·.text) = programWords p.name declarations p.body ∧
      (program limit q).rest.atEnd = true := by
  obtain ⟨taken, left, split, words, moved, stops⟩ := (programMachine limit).run_stops .start q
  obtain ⟨sound, read⟩ := ProgramState.sound_of_moves words moved
  rw [program] at accepted ⊢
  generalize (programMachine limit).run .start q = run at *
  cases stops with
  | atEnd ended =>
    obtain ⟨declared, rfl, context⟩ :=
      ProgramState.finish_ok_iff.mp (ProgramState.onEnd_ok_iff.mp accepted)
    obtain ⟨head, body⟩ := sound
    have declares : p.context.entries.Perm declared :=
      (Context.ofEntries_eq_iff head.distinct).mp context.symm
    refine ⟨declared.reverse, taken, ?_, split, read.symm, ended⟩
    exact ⟨head.named, fun d mem => head.fit d (List.mem_reverse.mp mem),
      nodup_names_reverse.mpr head.distinct, declares.trans (List.reverse_perm declared).symm, body⟩
  | leaving _ halts =>
    cases accepted
    exact absurd halts ProgramState.read_ne_ok
  | taking _ halts =>
    cases accepted
    exact absurd halts ProgramState.read_ne_ok

/-- The queues that are accepted as a program, and what is left of them. -/
theorem program_accepts_iff {q rest : TokenQueue} :
    ((program (some nestingLimit) q).result = .ok p ∧
        (program (some nestingLimit) q).rest = rest) ↔
      rest.toList <:+ q.toList ∧ rest.atEnd = true ∧ ∃ declarations,
        q.texts = programWords p.name declarations p.body ++ rest.texts ∧
        isIdentifier p.name = true ∧
        (∀ d ∈ declarations, (isIdentifier d.1 = true ∧ isPrimitive d.1 = false) ∧
          d.2.kind = .block ∧ d.2.WellShaped ∧ d.2.depth ≤ nestingLimit) ∧
        (declarations.map (·.1)).Nodup ∧
        p.context.entries.Perm declarations ∧
        p.body.kind = .block ∧ p.body.WellShaped ∧ p.body.depth ≤ nestingLimit := by
  simp only [← blockAt_some_iff, ← isInstructionName_iff]
  constructor
  · rintro ⟨accepted, rfl⟩
    obtain ⟨declarations, ts, written, split, texts, ended⟩ := words_of_program accepted
    refine ⟨⟨ts, split.symm⟩, ended, declarations, ?_, written.named, written.fit,
      written.distinct, written.declares, written.body⟩
    rw [TokenQueue.texts, split, List.map_append, texts]
    rfl
  · rintro ⟨⟨ts, split⟩, ended, declarations, texts, named, fit, distinct, declares, body⟩
    rw [TokenQueue.texts, ← split, List.map_append] at texts
    have whole := program_of_words ⟨named, fit, distinct, declares, body⟩ split.symm
      (List.append_cancel_right texts) ended
    rw [whole]
    exact ⟨rfl, rfl⟩

end RobotLang.Parser
