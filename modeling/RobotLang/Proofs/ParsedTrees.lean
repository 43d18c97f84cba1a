import RobotLang.Proofs.Acceptance

/-!
The trees that parsers give. Whatever the queue, a tree that comes out of a parser has the right
shape and lies within the limit; so does the body that a declaration has read when it is refused
behind it.
-/

namespace RobotLang.Parser

open Statement

variable {limit : Option Nat} {q : TokenQueue}

/-! ## Blocks -/

/-- A block is accepted where it is complete, before a word that ends blocks or at the end of the
input. -/
theorem block_stops {s : Statement} (accepted : (block limit q).result = .ok s) :
    ∃ taken b, q.toList = taken ++ (block limit q).rest.toList ∧ (∀ t ∈ taken, t.isEnd = false) ∧
      (blockMachine limit).moves .start taken = .shift b ∧ b.frames = [] ∧ b.point = .statement ∧
      s = b.block ∧
      ((block limit q).rest.front.text = Keyword.end.text ∨
        (block limit q).rest.front.text = Keyword.else.text ∨
        (block limit q).rest.front.text = endOfInput) := by
  obtain ⟨taken, left, split, words, moved, stops⟩ := (blockMachine limit).run_stops .start q
  rw [block] at accepted ⊢
  generalize (blockMachine limit).run .start q = run at *
  cases stops with
  | atEnd ended =>
    simp only [blockMachine] at accepted
    split at accepted <;> cases accepted
    rename_i noFault
    obtain ⟨outermost, complete⟩ := BlockState.endFault?_eq_none_iff.mp noFault
    have isEnd : left.front.text = endOfInput := by
      simpa [TokenQueue.atEnd, Token.isEnd] using ended
    exact ⟨taken, _, split, words, moved, outermost, complete, rfl, .inr (.inr isEnd)⟩
  | leaving _ halts =>
    cases accepted
    simp only [blockMachine] at halts
    split at halts <;> cases halts
    rename_i closes
    obtain ⟨outermost, complete, isEnd | isElse⟩ := BlockState.step_close closes
    · exact ⟨taken, _, split, words, moved, outermost, complete, rfl, .inl isEnd⟩
    · exact ⟨taken, _, split, words, moved, outermost, complete, rfl, .inr (.inl isElse)⟩
  | taking _ halts =>
    simp only [blockMachine] at halts
    split at halts <;> cases halts

/-- What is accepted as a block has been read up to where the queue goes on. -/
theorem words_of_block {s : Statement} (h : (block limit q).result = .ok s) :
    BlockAt limit 0 s ∧ ∃ ts, q.toList = ts ++ (block limit q).rest.toList ∧
      ts.map (·.text) = s.words := by
  obtain ⟨taken, b, split, words, moved, outermost, complete, rfl, -⟩ := block_stops h
  obtain ⟨sound, read⟩ := BlockState.sound_of_moves words moved
  refine ⟨sound.blockAt outermost, taken, split, ?_⟩
  rw [← read, BlockState.consumed_of_complete outermost complete]

theorem blockAt_of_block {s : Statement} (h : (block limit q).result = .ok s) :
    BlockAt limit 0 s := (words_of_block h).1

/-! ## Statements -/

theorem BlockState.eq_of_single? {s : BlockState} {item : Statement} (h : s.single? = some item) :
    s = ⟨[], [item], .statement⟩ := by
  unfold single? at h
  split at h <;> cases h
  rfl

theorem statement_sound_of_moves {s : BlockState} {ts : List Token}
    (words : ∀ t ∈ ts, t.isEnd = false)
    (moved : (statementMachine limit).moves .start ts = .shift s) :
    s.Sound limit ∧ s.consumed = ts.map (·.text) := by
  refine Machine.moves_invariant (fun s ws => s.Sound limit ∧ s.consumed = ws) []
    ⟨BlockState.sound_start, rfl⟩ ?_ words moved
  rintro s _ t next ⟨sound, rfl⟩ _ h
  simp only [statementMachine] at h
  split at h
  · rename_i shifted
    split at h <;> cases h
    exact sound.step shifted
  · cases h
  · cases h

/-- What is accepted as a statement has been read up to where the queue goes on. -/
theorem words_of_statement {s : Statement} (h : (statement limit q).result = .ok s) :
    ItemAt limit 0 s ∧ ∃ ts, q.toList = ts ++ (statement limit q).rest.toList ∧
      ts.map (·.text) = s.words := by
  obtain ⟨taken, left, split, words, moved, stops⟩ := (statementMachine limit).run_stops .start q
  obtain ⟨sound, read⟩ := statement_sound_of_moves words moved
  rw [statement] at h ⊢
  generalize (statementMachine limit).run .start q = run at *
  cases stops with
  | atEnd => cases h
  | leaving _ halts =>
    cases h
    simp only [statementMachine] at halts
    split at halts
    · split at halts <;> cases halts
    · cases halts
    · cases halts
  | taking goesOn halts =>
    cases h
    simp only [statementMachine] at halts
    split at halts
    · rename_i shifted
      split at halts <;> cases halts
      rename_i single
      cases BlockState.eq_of_single? single
      obtain ⟨soundNext, readNext⟩ := sound.step shifted
      refine ⟨soundNext.done s List.mem_cons_self, taken ++ [left.front], ?_, ?_⟩
      · rw [split, TokenQueue.toList_dequeue goesOn]
        simp
      · rw [List.map_append, ← read, List.map_singleton, ← readNext,
          BlockState.consumed_of_complete rfl rfl]
        simp [BlockState.block, wordsAll]
    · cases halts
    · cases halts

theorem itemAt_of_statement {s : Statement} (h : (statement limit q).result = .ok s) :
    ItemAt limit 0 s := (words_of_statement h).1

theorem itemAt_of_ifStatement {run : Run BlockState Statement} {s : Statement}
    (h : ifStatement limit q = .ok run) (result : run.result = .ok s) : ItemAt limit 0 s := by
  obtain ⟨-, rfl⟩ := ifStatement_eq_ok_iff.mp h
  exact itemAt_of_statement result

theorem itemAt_of_whileStatement {run : Run BlockState Statement} {s : Statement}
    (h : whileStatement limit q = .ok run) (result : run.result = .ok s) : ItemAt limit 0 s := by
  obtain ⟨-, rfl⟩ := whileStatement_eq_ok_iff.mp h
  exact itemAt_of_statement result

theorem item_of_callStatement {s : Statement} {rest : TokenQueue}
    (h : callStatement q = .ok (s, rest)) : s.Item := by
  obtain ⟨named, rfl, -⟩ := callStatement_eq_ok_iff.mp h
  exact (itemAt_call named (allows_none 0)).1

theorem blockAt_of_statements {text : String} {s : Statement}
    (h : statements limit text = .ok s) : BlockAt limit 0 s := by
  simp only [statements] at h
  split at h
  · cases h
  · rename_i accepted
    split at h <;> cases h
    exact blockAt_of_block accepted

/-! ## Declarations and programs -/

theorem frames_of_closesBefore {s : BlockState} {t : Token} (h : s.closesBefore limit t = true) :
    s.frames = [] := by
  unfold BlockState.closesBefore at h
  split at h
  · exact (BlockState.endFault?_eq_none_iff.mp (Option.isNone_iff_eq_none.mp h)).1
  · split at h
    · rename_i closes
      exact (BlockState.step_close closes).1
    · cases h

theorem DeclarationState.Sound.blockAt_of_body? {s : DeclarationState} {t : Token}
    {body : Statement} (sound : s.Sound limit) (h : s.body? limit t = some body) :
    BlockAt limit 0 body := by
  unfold DeclarationState.body? at h
  split at h
  · cases h
    exact sound.2
  · split at h <;> cases h
    rename_i closes
    exact sound.2.blockAt (frames_of_closesBefore closes)
  · cases h

theorem blockAt_of_readBody? {run : Run DeclarationState (String × Statement)} {body : Statement}
    (h : declaration limit q = .ok run) (read : readBody? limit run = some body) :
    BlockAt limit 0 body := by
  obtain ⟨-, rfl⟩ := declaration_eq_ok_iff.mp h
  obtain ⟨taken, -, -, words, moved, -⟩ :=
    (declarationMachine limit).run_stops .naming q.dequeue.2
  exact (DeclarationState.sound_of_moves words moved).1.blockAt_of_body? read

theorem declarationAt_of_declaration {run : Run DeclarationState (String × Statement)}
    {d : String × Statement} (h : declaration limit q = .ok run) (result : run.result = .ok d) :
    DeclarationAt limit d := by
  obtain ⟨-, rfl⟩ := declaration_eq_ok_iff.mp h
  obtain ⟨taken, left, -, words, moved, stops⟩ :=
    (declarationMachine limit).run_stops .naming q.dequeue.2
  obtain ⟨sound, -⟩ := DeclarationState.sound_of_moves words moved
  generalize (declarationMachine limit).run .naming q.dequeue.2 = run at *
  cases stops with
  | atEnd => cases result
  | leaving _ halts | taking _ halts =>
    cases result
    exact (sound.read_ok halts).2.1

theorem declarationAt_of_program {p : Program} (h : (program limit q).result = .ok p) :
    ∀ entry ∈ p.context.entries, DeclarationAt limit entry := by
  obtain ⟨declarations, -, written, -⟩ := words_of_program h
  exact fun entry mem => written.fit entry (written.declares.mem_iff.mp mem)

theorem blockAt_of_program {p : Program} (h : (program limit q).result = .ok p) :
    BlockAt limit 0 p.body := by
  obtain ⟨declarations, -, written, -⟩ := words_of_program h
  exact written.body

theorem wellFormed_of_program {p : Program} (h : (program limit q).result = .ok p) :
    p.WellFormed := by
  obtain ⟨declarations, -, written, -⟩ := words_of_program h
  have fit := declarationAt_of_program h
  have block {s : Statement} (h : BlockAt limit 0 s) : s.kind = .block ∧ s.WellShaped :=
    ⟨(blockAt_iff.mp h).1, (blockAt_iff.mp h).2.1⟩
  exact ⟨written.named, fun entry mem => (fit entry mem).1, fun entry mem => block (fit entry mem).2,
    block written.body⟩

end RobotLang.Parser
