import RobotLang.Proofs.RepeatedNames

/-!
The declarations that a parser has read to their end. They are those that the queue begins with behind
the head of a program, up to the first one that repeats a name (`Closes`). The parser reads as many of
them as there are, whatever it comes to then (`closedDeclarations_exact`).
-/

namespace RobotLang.Parser

open Statement

variable {limit : Option Nat} {q : TokenQueue} {name : String}
  {declarations : List (String × Statement)} {last : String × Statement} {t : Token}

/-- The queue begins as a program does, up to the end of a declaration, and all before the last one
have names of their own. -/
structure Closes (limit : Option Nat) (q : TokenQueue) (name : String)
    (declarations : List (String × Statement)) : Prop where
  named : isIdentifier name = true
  fit : ∀ d ∈ declarations, DeclarationAt limit d
  distinct : (declarations.dropLast.map (·.1)).Nodup
  begins : headWords name declarations <+: q.texts

/-! ## Declarations are kept -/

theorem ProgramState.declared_of_read {s next : ProgramState}
    (shifted : s.read limit t = .shift next) : s.declared <:+ next.declared := by
  cases s with
  | start | naming | named => exact List.nil_suffix
  | declaring name declared =>
    simp only [ProgramState.read] at shifted
    split at shifted
    · cases shifted
      exact List.suffix_rfl
    split at shifted <;> cases shifted
    exact List.suffix_rfl
  | inDeclaration name declared place d =>
    simp only [ProgramState.read] at shifted
    split at shifted
    · cases shifted
      exact List.suffix_rfl
    · cases shifted
    · split at shifted <;> cases shifted
      exact List.suffix_cons _ declared
  | inBody name declared b =>
    simp only [ProgramState.read] at shifted
    split at shifted
    · cases shifted
      exact List.suffix_rfl
    · cases shifted
    · split at shifted <;> cases shifted
      exact List.suffix_rfl
  | closing name declared body =>
    simp only [ProgramState.read] at shifted
    split at shifted <;> cases shifted
    exact List.suffix_rfl
  | complete => cases shifted

theorem declared_of_run (limit : Option Nat) (s : ProgramState) (q : TokenQueue) :
    s.declared <:+ ((programMachine limit).run s q).state.declared := by
  obtain ⟨taken, left, -, words, moved, -⟩ := (programMachine limit).run_stops s q
  exact Machine.moves_invariant (fun next _ => s.declared <:+ next.declared) [] List.suffix_rfl
    (fun _ _ _ _ kept _ shifted => kept.trans (ProgramState.declared_of_read shifted)) words moved

theorem closedDeclarations_of_unrepeated {run : Run ProgramState Program}
    (new : ∀ e, run.result = .error e → e.fault.kind ≠ .duplicateInstruction) :
    closedDeclarations run = run.state.declared.reverse.map (·.1) := by
  unfold closedDeclarations
  split
  · rename_i refused
    exact absurd rfl (new _ refused)
  · exact List.append_nil _

theorem prefix_closedDeclarations (run : Run ProgramState Program) :
    run.state.declared.reverse.map (·.1) <+: closedDeclarations run :=
  List.prefix_append ..

/-! ## What has been closed -/

theorem closed_of_repetition (r : Repetition limit name declarations last)
    (begins : headWords name declarations ++ declarationWords last <+: q.texts) :
    closedDeclarations (program limit q) = (declarations ++ [last]).map (·.1) := by
  obtain ⟨taken, left, split, texts⟩ := TokenQueue.split_of_prefix begins r.endOfInput_not_mem
  have words := Token.isEnd_of_texts texts r.endOfInput_not_mem
  obtain ⟨head, ts, rfl, headTexts, lastTexts⟩ := List.map_eq_append_iff.mp texts
  obtain ⟨opening, inside, closing, rfl, moved, halts⟩ := r.moves headTexts lastTexts
  rw [← List.append_assoc] at split
  rw [← List.append_assoc, List.forall_mem_append, List.forall_mem_singleton] at words
  rw [program, Machine.run_of_taken split words.1 words.2 moved halts]
  simp [closedDeclarations, ProgramState.declared]

theorem endOfInput_not_mem_headWords (named : isIdentifier name = true)
    (fit : ∀ d ∈ declarations, DeclarationAt limit d) :
    endOfInput ∉ headWords name declarations := by
  have name := (ne_endOfInput_of_isIdentifier named).symm
  have declared : ∀ d ∈ declarations, endOfInput ∉ declarationWords d :=
    fun d mem => endOfInput_not_mem_declarationWords (fit d mem)
  simpa [headWords, name, (Keyword.text_ne_endOfInput _).symm] using declared

theorem closed_of_distinct (closes : Closes limit q name declarations)
    (distinct : (declarations.map (·.1)).Nodup) :
    declarations.map (·.1) <+: closedDeclarations (program limit q) := by
  have absent := endOfInput_not_mem_headWords closes.named closes.fit
  obtain ⟨head, left, split, texts⟩ := TokenQueue.split_of_prefix closes.begins absent
  have words := Token.isEnd_of_texts texts absent
  have unlimited : ∀ d ∈ declarations, DeclarationAt none d :=
    fun d mem => ⟨(closes.fit d mem).1, (closes.fit d mem).2.unlimited⟩
  cases head_reading limit closes.named unlimited texts with
  | through _ _ moved =>
    have kept : declarations.reverse <:+ (program limit q).state.declared := by
      rw [program, Machine.run_of_moves split words moved]
      exact declared_of_run limit (.declaring name declarations.reverse) left
    have names := (List.reverse_prefix.mpr kept).map (·.1)
    rw [List.reverse_reverse] at names
    exact names.trans (prefix_closedDeclarations _)
  | tooDeep deep => exact absurd (fun d mem => (closes.fit d mem).2.allows) deep
  | repeated old => exact absurd distinct old

theorem prefix_of_closes (closes : Closes limit q name declarations) :
    declarations.map (·.1) <+: closedDeclarations (program limit q) := by
  by_cases distinct : (declarations.map (·.1)).Nodup
  · exact closed_of_distinct closes distinct
  · -- Only the last declaration can be the one that repeats a name.
    rcases List.eq_nil_or_concat declarations with rfl | ⟨before, last, rfl⟩
    · exact absurd List.nodup_nil distinct
    · rw [List.concat_eq_append] at closes distinct ⊢
      obtain ⟨named, fit, new, begins⟩ := closes
      rw [List.dropLast_concat] at new
      have old : last.1 ∈ before.map (·.1) := by
        refine Decidable.byContradiction fun absent => distinct ?_
        rw [List.map_append, List.map_singleton]
        exact (List.perm_append_singleton _ _).nodup_iff.mpr (List.nodup_cons.mpr ⟨absent, new⟩)
      have whole : headWords name (before ++ [last]) =
          headWords name before ++ declarationWords last := by simp [headWords]
      have closed := closed_of_repetition ⟨named, fit, new, old⟩ (whole ▸ begins)
      exact closed.symm ▸ List.prefix_rfl

/-- What a sound state has declared stands behind the head of a program. -/
theorem ProgramState.Sound.head {s : ProgramState} (sound : s.Sound limit) (some : s.declared ≠ []) :
    ∃ name, HeadSound limit name s.declared ∧ headWords name s.declared.reverse <+: s.consumed := by
  cases s with
  | start | naming | named => exact absurd rfl some
  | declaring name => exact ⟨name, sound, List.prefix_rfl⟩
  | inDeclaration name => exact ⟨name, sound.1, List.prefix_append ..⟩
  | inBody name | closing name | complete name =>
    refine ⟨name, sound.1, ?_⟩
    simp only [declared, consumed, programWords, List.append_assoc]
    exact List.prefix_append ..

theorem exists_closes (some : closedDeclarations (program limit q) ≠ []) :
    ∃ name declarations, Closes limit q name declarations ∧
      declarations.map (·.1) = closedDeclarations (program limit q) := by
  by_cases repeats : ∃ e, (program limit q).result = .error e ∧
      e.fault.kind = .duplicateInstruction
  · obtain ⟨e, refused, kind⟩ := repeats
    obtain ⟨name, declarations, last, r, begins⟩ := repetition_of_refused refused kind
    have whole : headWords name (declarations ++ [last]) =
        headWords name declarations ++ declarationWords last := by simp [headWords]
    refine ⟨name, declarations ++ [last], ⟨r.named, r.fit, ?_, whole ▸ begins⟩,
      (closed_of_repetition r begins).symm⟩
    rw [List.dropLast_concat]
    exact r.distinct
  · have closed : closedDeclarations (program limit q) =
        (program limit q).state.declared.reverse.map (·.1) :=
      closedDeclarations_of_unrepeated fun e refused kind => repeats ⟨e, refused, kind⟩
    obtain ⟨taken, left, split, words, moved, -⟩ := (programMachine limit).run_stops .start q
    obtain ⟨sound, read⟩ := ProgramState.sound_of_moves words moved
    rw [closed] at some ⊢
    have some : (program limit q).state.declared ≠ [] := fun none => some (by rw [none]; rfl)
    obtain ⟨name, ⟨named, fit, distinct⟩, begins⟩ := sound.head some
    refine ⟨name, _, ⟨named, ?_, ?_, ?_⟩, rfl⟩
    · exact fun d mem => fit d (List.mem_reverse.mp mem)
    · exact (nodup_names_reverse.mpr distinct).sublist ((List.dropLast_sublist _).map _)
    · refine begins.trans ?_
      rw [read, TokenQueue.texts, split, List.map_append]
      exact List.prefix_append ..

/-- The closed declarations are the longest list of those that the queue begins with, and none if the
queue does not begin as a program with declarations does. -/
theorem closedDeclarations_exact (limit : Option Nat) (q : TokenQueue) :
    (∀ name declarations, Closes limit q name declarations →
      declarations.map (·.1) <+: closedDeclarations (program limit q)) ∧
    (closedDeclarations (program limit q) ≠ [] → ∃ name declarations,
      Closes limit q name declarations ∧
        declarations.map (·.1) = closedDeclarations (program limit q)) :=
  ⟨fun _ _ => prefix_of_closes, exists_closes⟩

end RobotLang.Parser
