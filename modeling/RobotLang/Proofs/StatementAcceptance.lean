import RobotLang.Proofs.BlockContinuation
import RobotLang.Proofs.Completion
import RobotLang.Proofs.DescentDeclaration
import RobotLang.Proofs.ParsedTrees

/-!
Which queues begin with a statement or a block. A statement is read off the front of a queue exactly if
the words of the statement stand there, whatever follows; a block also needs behind it what ends
blocks (`statement_accepts_iff`, `block_accepts_iff`). No part of the words of a statement is a
statement (`eq_nil_of_single?`), so reading stops at the last of them. Where the queue begins with one
of their kind, the parsers of the three kinds of statements come to what the parser of all of them
comes to.

Main statement: `statement_parsers_exact`.
-/

namespace RobotLang

/-- The rest of a queue behind words of it. -/
theorem TokenQueue.split_iff {q left : TokenQueue} {words : List String} :
    left.toList <:+ q.toList ∧ q.texts = words ++ left.texts ↔
      ∃ ts, q.toList = ts ++ left.toList ∧ ts.map (·.text) = words := by
  constructor
  · rintro ⟨⟨ts, split⟩, same⟩
    rw [texts, ← split, List.map_append] at same
    exact ⟨ts, split.symm, List.append_cancel_right same⟩
  · rintro ⟨ts, split, rfl⟩
    exact ⟨⟨ts, split.symm⟩, by rw [texts, split, List.map_append]; rfl⟩

namespace Parser

open Statement

variable {limit : Option Nat} {q left : TokenQueue} {s : BlockState} {ts : List Token}
  {item other : Statement}

/-! ## Statements -/

/-- Behind a complete statement no words lead to where one statement has been read. -/
theorem BlockState.eq_nil_of_single? {ws : List String} (single : s.single? = some other)
    (read : s.steps limit ws = .shift ⟨[], [item], .statement⟩) : ws = [] ∧ other = item := by
  cases eq_of_single? single
  have behind := steps_behind limit [other] start ws
  have first : start.behind [other] = ⟨[], [other], .statement⟩ := rfl
  rw [first, read] at behind
  -- Alone, these words lead to where nothing has been read, and they are what has been read.
  cases alone : start.steps limit ws with
  | shift next =>
    obtain ⟨frames, done, point⟩ := next
    obtain ⟨-, consumed⟩ := sound_start.steps alone
    simp only [alone, BlockStep.behind, BlockState.behind, BlockStep.shift.injEq, mk.injEq] at behind
    obtain ⟨outermost, statements, rfl⟩ := behind
    cases frames with
    | cons f frames => cases outermost
    | nil =>
      cases done with
      | cons newest done => simp [statementsBehind] at statements
      | nil =>
        simp only [statementsBehind, List.nil_append, List.cons.injEq, and_true] at statements
        exact ⟨consumed.symm, statements.symm⟩
  | close => simp [alone, BlockStep.behind] at behind
  | refuse fault => simp [alone, BlockStep.behind] at behind

/-- Words that lead to one statement are read up to the last of them. -/
theorem statement_run_of_steps (split : q.toList = ts ++ left.toList) (begun : ts ≠ [])
    (words : ∀ t ∈ ts, t.isEnd = false)
    (read : s.steps limit (ts.map (·.text)) = .shift ⟨[], [item], .statement⟩) :
    ((statementMachine limit).run s q).result = .ok item ∧
      ((statementMachine limit).run s q).rest = left := by
  induction ts generalizing s q with
  | nil => exact absurd rfl begun
  | cons t ts ih =>
    obtain ⟨word, after⟩ := List.forall_mem_cons.mp words
    have goesOn : q.atEnd = false := by
      rw [TokenQueue.toList_eq_append.mp split]
      exact word
    have front := TokenQueue.toList_dequeue goesOn
    rw [split, List.cons_append, List.cons.injEq] at front
    obtain ⟨rfl, behind⟩ := front
    simp only [List.map_cons, BlockState.steps] at read
    split at read
    · rename_i next shifted
      cases single : next.single? with
      | some other =>
        -- A statement is complete, so there are no more words, and it is the one.
        obtain ⟨done, rfl⟩ := BlockState.eq_nil_of_single? single read
        rw [List.map_eq_nil_iff] at done
        subst done
        have halts : (statementMachine limit).onWord s q.front = .halt true (.ok other) := by
          simp only [statementMachine, shifted, single]
        rw [Machine.run_of_halt goesOn halts]
        exact ⟨rfl, (@TokenQueue.toList_eq_append _ _ []).mp behind.symm⟩
      | none =>
        have begun : ts ≠ [] := by
          rintro rfl
          cases read
          cases single
        have shift : (statementMachine limit).onWord s q.front = .shift next := by
          simp only [statementMachine, shifted, single]
        rw [Machine.run_of_shift goesOn shift]
        exact ih behind.symm begun after read
    · cases read
    · cases read

theorem wordsAll_singleton (s : Statement) : wordsAll [s] = s.words := by simp [wordsAll]

theorem words_ne_nil (shaped : item.Item) : item.words ≠ [] := by
  have body := body_of_items [item] (by simpa using shaped)
  cases body <;> simp

theorem statement_of_words (fits : ItemAt limit 0 item) (split : q.toList = ts ++ left.toList)
    (texts : ts.map (·.text) = item.words) :
    (statement limit q).result = .ok item ∧ (statement limit q).rest = left := by
  have body := body_of_items [item] (by simpa using fits.1)
  have room : Allows limit (depthAll [item]) := by simpa [depthAll] using fits.2
  have read := BlockState.steps_wordsAll limit body
  rw [if_pos room, wordsAll_singleton, ← texts] at read
  have begun : ts ≠ [] := by
    rintro rfl
    exact words_ne_nil fits.1 texts.symm
  refine statement_run_of_steps split begun (Token.isEnd_of_texts texts ?_) read
  rw [← wordsAll_singleton]
  exact endOfInput_not_mem_wordsAll body

/-- The queues that a statement is read off, and what is left of them. -/
theorem statement_accepts_iff :
    (statement limit q).result = .ok item ∧ (statement limit q).rest = left ↔
      ItemAt limit 0 item ∧ ∃ ts, q.toList = ts ++ left.toList ∧ ts.map (·.text) = item.words := by
  constructor
  · rintro ⟨accepted, rfl⟩
    exact words_of_statement accepted
  · rintro ⟨fits, ts, split, texts⟩
    exact statement_of_words fits split texts

/-! ## Blocks -/

/-- The queues that a block is read off, and what is left of them. -/
theorem block_accepts_iff :
    (block (some nestingLimit) q).result = .ok item ∧ (block (some nestingLimit) q).rest = left ↔
      BlockAt (some nestingLimit) 0 item ∧
        (∃ ts, q.toList = ts ++ left.toList ∧ ts.map (·.text) = item.words) ∧
        (left.front.text = Keyword.end.text ∨ left.front.text = Keyword.else.text ∨
          left.front.text = endOfInput) := by
  constructor
  · rintro ⟨accepted, rfl⟩
    obtain ⟨fits, split⟩ := words_of_block accepted
    obtain ⟨-, -, -, -, -, -, -, -, ends⟩ := block_stops accepted
    exact ⟨fits, split, ends⟩
  · rintro ⟨⟨body, rfl, shaped, fits⟩, ⟨ts, split, texts⟩, front⟩
    rw [Nat.zero_add] at fits
    have ends : Descent.endsBlock left.front = true := by
      simpa [Descent.endsBlock, Token.isEnd, or_assoc] using front
    have words := Token.isEnd_of_texts texts (endOfInput_not_mem_wordsAll shaped)
    cases block_reading (some nestingLimit) shaped texts with
    | through _ _ moved =>
      rw [block, Machine.run_of_moves split words moved, run_of_endsBlock ends]
      exact ⟨by simp, rfl⟩
    | tooDeep deep => exact absurd fits deep
    | repeated old => exact absurd trivial old

/-! ## Single kinds of statements -/

theorem callStatement_agrees (named : isIdentifier q.front.text = true) :
    ∃ call left, callStatement q = .ok (call, left) ∧ (statement limit q).result = .ok call ∧
      (statement limit q).rest = left := by
  have goesOn := atEnd_eq_false_of_isIdentifier named
  have split : q.toList = [q.front] ++ q.dequeue.2.toList := TokenQueue.toList_dequeue goesOn
  obtain ⟨accepted, left⟩ := statement_of_words (itemAt_call named (allows_zero limit)) split rfl
  exact ⟨_, _, if_pos named, accepted, left⟩

namespace Descent

variable {inner : Procedure Statement Unit} {target : Statement}

theorem statement_of_if (starts : q.front.text = Keyword.if.text) :
    statement inner ⟨q, target⟩ = ifStatement inner ⟨q, target⟩ := by
  rw [statement, Procedure.front_bind, if_pos starts]

theorem statement_of_while (starts : q.front.text = Keyword.while.text) :
    statement inner ⟨q, target⟩ = whileStatement inner ⟨q, target⟩ := by
  have other : q.front.text ≠ Keyword.if.text := by simp [starts]
  rw [statement, Procedure.front_bind, if_neg other, if_pos starts]

theorem statement_of_call (named : isIdentifier q.front.text = true) :
    statement inner ⟨q, target⟩ = callStatement ⟨q, target⟩ := by
  have other := ne_keyword_of_isIdentifier named
  rw [statement, Procedure.front_bind, if_neg (other _), if_neg (other _), if_pos named]

end Descent

/-! ## Main statement -/

/-- Statements and blocks are read off a queue exactly where their words stand, a block only before
what ends blocks. Where the queue begins with IF, WHILE or an identifier, the parser of that kind of
statement comes to the same as the parser of all of them; and so do the procedures that do the work of
the two. -/
theorem statement_parsers_exact (q left : TokenQueue) (s : Statement) :
    ((statement (some nestingLimit) q).result = .ok s ∧
        (statement (some nestingLimit) q).rest = left ↔
      s.kind ≠ .block ∧ s.WellShaped ∧ s.depth ≤ nestingLimit ∧ left.toList <:+ q.toList ∧
        q.texts = s.words ++ left.texts) ∧
    ((block (some nestingLimit) q).result = .ok s ∧ (block (some nestingLimit) q).rest = left ↔
      s.kind = .block ∧ s.WellShaped ∧ s.depth ≤ nestingLimit ∧ left.toList <:+ q.toList ∧
        q.texts = s.words ++ left.texts ∧
        (left.front.text = Keyword.end.text ∨ left.front.text = Keyword.else.text ∨
          left.front.text = endOfInput)) ∧
    (q.front.text = Keyword.if.text →
      ifStatement (some nestingLimit) q = .ok (statement (some nestingLimit) q) ∧
      ∀ fuel target, Descent.ifStatement (Descent.block fuel 1) ⟨q, target⟩ =
        Descent.statement (Descent.block fuel 1) ⟨q, target⟩) ∧
    (q.front.text = Keyword.while.text →
      whileStatement (some nestingLimit) q = .ok (statement (some nestingLimit) q) ∧
      ∀ fuel target, Descent.whileStatement (Descent.block fuel 1) ⟨q, target⟩ =
        Descent.statement (Descent.block fuel 1) ⟨q, target⟩) ∧
    (isIdentifier q.front.text = true →
      (∃ call behind, callStatement q = .ok (call, behind) ∧
        (statement (some nestingLimit) q).result = .ok call ∧
        (statement (some nestingLimit) q).rest = behind) ∧
      ∀ fuel target, Descent.callStatement ⟨q, target⟩ =
        Descent.statement (Descent.block fuel 1) ⟨q, target⟩) := by
  refine ⟨?_, ?_, fun starts => ⟨if_pos starts, fun _ _ => (Descent.statement_of_if starts).symm⟩,
    fun starts => ⟨if_pos starts, fun _ _ => (Descent.statement_of_while starts).symm⟩,
    fun named => ⟨callStatement_agrees named, fun _ _ => (Descent.statement_of_call named).symm⟩⟩
  · simp only [statement_accepts_iff, ← TokenQueue.split_iff, ItemAt, Item, Nat.zero_add,
      allows_some, and_assoc]
  · simp only [block_accepts_iff, ← TokenQueue.split_iff, blockAt_some_iff, and_assoc]

/-- A call before a word that cannot follow it, a block before END, and an IF, a WHILE and a call. -/
theorem statement_parsers_exact_fronts :
    ((statement (some nestingLimit) (.ofTexts ["move", "THEN"])).result = .ok (.call "move") ∧
      (statement (some nestingLimit) (.ofTexts ["move", "THEN"])).rest = .ofTexts ["THEN"]) ∧
    ((block (some nestingLimit) (.ofTexts ["move", "END"])).result = .ok (.block [.call "move"]) ∧
      (block (some nestingLimit) (.ofTexts ["move", "END"])).rest = .ofTexts ["END"]) ∧
    ifStatement (some nestingLimit) (.ofTexts ["IF", "move"]) =
      .ok (statement (some nestingLimit) (.ofTexts ["IF", "move"])) ∧
    whileStatement (some nestingLimit) (.ofTexts ["WHILE"]) =
      .ok (statement (some nestingLimit) (.ofTexts ["WHILE"])) ∧
    ∃ call behind, callStatement (.ofTexts ["skip"]) = .ok (call, behind) ∧
      (statement (some nestingLimit) (.ofTexts ["skip"])).result = .ok call ∧
      (statement (some nestingLimit) (.ofTexts ["skip"])).rest = behind := by
  obtain ⟨call, -⟩ := statement_parsers_exact (.ofTexts ["move", "THEN"]) (.ofTexts ["THEN"])
    (.call "move")
  obtain ⟨-, body, -⟩ := statement_parsers_exact (.ofTexts ["move", "END"]) (.ofTexts ["END"])
    (.block [.call "move"])
  have named : isIdentifier "move" = true := by decide +kernel
  refine ⟨call.mpr ⟨by decide, (itemAt_call named (allows_zero none)).1.2, by decide, ?_, rfl⟩,
    body.mpr ⟨by decide, wellShaped_block_iff.mpr (.call named .nil), by decide, ?_, rfl, .inl rfl⟩,
    ?_, ?_, ?_⟩
  · exact List.suffix_cons _ _
  · exact List.suffix_cons _ _
  · exact ((statement_parsers_exact (.ofTexts ["IF", "move"]) .empty .empty).2.2.1 rfl).1
  · exact ((statement_parsers_exact (.ofTexts ["WHILE"]) .empty .empty).2.2.2.1 rfl).1
  · exact ((statement_parsers_exact (.ofTexts ["skip"]) .empty .empty).2.2.2.2 (by decide +kernel)).1

end Parser

end RobotLang
