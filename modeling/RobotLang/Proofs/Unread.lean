import RobotLang.Proofs.DescentDeclaration
import RobotLang.Proofs.Places

/-!
What is not read does not matter. No parser ever looks behind the first end token, so a run on a
queue with another one behind it is the run without, and leaves what is behind in place
(`Machine.run_followedBy`). A parser of a statement or of a declaration accepts at a word that it
takes, so it has not even looked at what follows, and it accepts the words that it took before
everything else as well (`AcceptsAtWord.run_of_texts`).

Main statement: `unread_irrelevant`.
-/

namespace RobotLang

/-! ## Queues behind queues -/

/-- The first queue, its end token included, and then the second one. -/
def TokenQueue.followedBy (q r : TokenQueue) : TokenQueue :=
  ⟨q.tokens ++ q.closing :: r.tokens, r.endSpan⟩

theorem TokenQueue.toList_followedBy (q r : TokenQueue) :
    (q.followedBy r).toList = q.toList ++ r.toList := by
  simp [toList, followedBy, closing]

theorem TokenQueue.front_followedBy (q r : TokenQueue) : (q.followedBy r).front = q.front := by
  rcases q with ⟨_ | ⟨t, ts⟩, place⟩ <;> rfl

theorem TokenQueue.dequeue_followedBy (q r : TokenQueue) :
    (q.followedBy r).dequeue = (q.dequeue.1, q.dequeue.2.followedBy r) := by
  have fronts := q.front_followedBy r
  have ends : (q.followedBy r).atEnd = q.atEnd := by rw [atEnd, atEnd, fronts]
  unfold dequeue
  rw [ends, fronts]
  split
  · rfl
  · rename_i goesOn
    rcases q with ⟨_ | ⟨t, ts⟩, place⟩
    · exact absurd rfl goesOn
    · rfl

theorem TokenQueue.ofTexts_followedBy (xs ys : List String) :
    ofTexts (xs ++ [endOfInput] ++ ys) = (ofTexts xs).followedBy (ofTexts ys) := by
  simp [ofTexts, followedBy, closing]

namespace Parser

variable {σ α : Type} {limit : Option Nat} {q r : TokenQueue}

def Run.followedBy (run : Run σ α) (r : TokenQueue) : Run σ α :=
  { run with rest := run.rest.followedBy r }

theorem Machine.run_followedBy (m : Machine σ α) (s : σ) (q r : TokenQueue) :
    m.run s (q.followedBy r) = (m.run s q).followedBy r := by
  obtain ⟨ts, place⟩ := q
  simp only [run, TokenQueue.followedBy, TokenQueue.closing]
  induction ts generalizing s with
  -- Behind all tokens of the first queue stands its end token, and there both runs end.
  | nil => rfl
  | cons t ts ih =>
    simp only [List.cons_append, runTokens]
    split
    · rfl
    · split
      · exact ih _
      · rfl
      · rfl

theorem ifStatement_followedBy (limit : Option Nat) (q r : TokenQueue) :
    ifStatement limit (q.followedBy r) = (ifStatement limit q).map (·.followedBy r) := by
  unfold ifStatement
  rw [TokenQueue.front_followedBy]
  split
  · exact congrArg Except.ok (Machine.run_followedBy _ _ q r)
  · rfl

theorem whileStatement_followedBy (limit : Option Nat) (q r : TokenQueue) :
    whileStatement limit (q.followedBy r) = (whileStatement limit q).map (·.followedBy r) := by
  unfold whileStatement
  rw [TokenQueue.front_followedBy]
  split
  · exact congrArg Except.ok (Machine.run_followedBy _ _ q r)
  · rfl

theorem callStatement_followedBy (q r : TokenQueue) :
    callStatement (q.followedBy r) =
      (callStatement q).map fun (s, left) => (s, left.followedBy r) := by
  unfold callStatement
  rw [TokenQueue.front_followedBy, TokenQueue.dequeue_followedBy]
  split <;> rfl

theorem declaration_followedBy (limit : Option Nat) (q r : TokenQueue) :
    declaration limit (q.followedBy r) = (declaration limit q).map (·.followedBy r) := by
  unfold declaration
  rw [TokenQueue.front_followedBy, TokenQueue.dequeue_followedBy]
  split
  · exact congrArg Except.ok (Machine.run_followedBy _ _ _ r)
  · rfl

theorem readBody?_followedBy (run : Run DeclarationState (String × Statement)) (r : TokenQueue) :
    readBody? limit (run.followedBy r) = readBody? limit run := by
  simp only [readBody?, Run.followedBy, TokenQueue.front_followedBy]

/-! ## Accepting at a word -/

/-- The machine accepts only at a word, which it takes. -/
structure Machine.AcceptsAtWord (m : Machine σ α) : Prop where
  taken : ∀ {s t taken a}, m.onWord s t = .halt taken (.ok a) → taken = true
  ending : ∀ {s place a}, m.onEnd s place ≠ .ok a

theorem statement_acceptsAtWord (limit : Option Nat) :
    (statementMachine limit).AcceptsAtWord where
  taken := by
    intro s t taken a h
    simp only [statementMachine] at h
    split at h
    · split at h <;> cases h
      rfl
    · cases h
    · cases h
  ending := by
    intro s place a h
    cases h

theorem declaration_acceptsAtWord (limit : Option Nat) :
    (declarationMachine limit).AcceptsAtWord where
  taken := fun h => (DeclarationState.of_read_ok h).1
  ending := by
    intro s place a h
    cases h

namespace Machine.AcceptsAtWord

variable {m : Machine σ α} {s : σ} {a : α}

/-- A machine that has accepted accepts the same tokens before everything else. -/
theorem run_of_tokens (h : m.AcceptsAtWord) (accepted : (m.run s q).result = .ok a) :
    ∃ ts, q.toList = ts ++ (m.run s q).rest.toList ∧ (∀ t ∈ ts, t.isEnd = false) ∧
      ∀ {other left : TokenQueue}, other.toList = ts ++ left.toList →
        m.run s other = ⟨(m.run s q).state, .ok a, left⟩ := by
  obtain ⟨taken, left, split, words, moved, stops⟩ := m.run_stops s q
  generalize m.run s q = run at *
  cases stops with
  | atEnd => exact absurd accepted h.ending
  | leaving _ halts =>
    cases accepted
    cases h.taken halts
  | taking goesOn halts =>
    cases accepted
    have word : left.front.isEnd = false := goesOn
    refine ⟨taken ++ [left.front], ?_, ?_, fun same => run_of_taken same words word moved halts⟩
    · rw [split, TokenQueue.toList_dequeue goesOn, List.append_assoc]
      rfl
    · simpa [or_imp, forall_and] using ⟨words, word⟩

/-- Nor does it matter where the tokens stand. -/
theorem run_of_texts (h : m.AcceptsAtWord) {f : σ → σ} (unplaced : m.Unplaced f)
    {other : TokenQueue} {us ws : List String} (accepted : (m.run s q).result = .ok a)
    (read : q.texts = us ++ (m.run s q).rest.texts) (begins : other.texts = us ++ ws) :
    (m.run s other).result = .ok a ∧ (m.run s other).rest.texts = ws ∧
      f (m.run s other).state = f (m.run s q).state := by
  obtain ⟨ts, split, words, again⟩ := h.run_of_tokens accepted
  have texts : ts.map (·.text) = us := by
    rw [TokenQueue.texts, split, List.map_append] at read
    exact List.append_cancel_right read
  have absent : endOfInput ∉ us := texts ▸ Token.endOfInput_not_mem words
  obtain ⟨ts', left, split', texts'⟩ := TokenQueue.split_of_prefix ⟨ws, begins.symm⟩ absent
  have behind : left.texts = ws := by
    rw [TokenQueue.texts, split', List.map_append, texts'] at begins
    exact List.append_cancel_left begins
  -- The tokens of the first run before the rest of the other queue: the same words as there.
  let between : TokenQueue := ⟨ts ++ left.tokens, left.endSpan⟩
  have splitBetween : between.toList = ts ++ left.toList := TokenQueue.toList_eq_append.mpr rfl
  have same : between.texts = other.texts := by
    rw [TokenQueue.texts, TokenQueue.texts, splitBetween, split', List.map_append, List.map_append,
      texts, texts']
  obtain ⟨⟨results, -, rests⟩, states⟩ := unplaced.sameRun s same
  rw [again splitBetween] at results rests states
  refine ⟨?_, rests.symm.trans behind, states.symm⟩
  cases result : (m.run s other).result with
  | ok b =>
    rw [result] at results
    cases results
    rfl
  | error e =>
    rw [result] at results
    cases results

end Machine.AcceptsAtWord

theorem statement_of_texts {other : TokenQueue} {us ws : List String} {s : Statement}
    (accepted : (statement limit q).result = .ok s)
    (read : q.texts = us ++ (statement limit q).rest.texts) (begins : other.texts = us ++ ws) :
    (statement limit other).result = .ok s ∧ (statement limit other).rest.texts = ws := by
  obtain ⟨result, rest, -⟩ := (statement_acceptsAtWord limit).run_of_texts
    (statement_unplaced limit) accepted read begins
  exact ⟨result, rest⟩

/-- A body has been read where a declaration has. -/
theorem readBody?_of_accepted {run : Run DeclarationState (String × Statement)}
    {d : String × Statement} (parsed : declaration limit q = .ok run)
    (accepted : run.result = .ok d) : readBody? limit run = some d.2 := by
  obtain ⟨-, rfl⟩ := declaration_eq_ok_iff.mp parsed
  obtain ⟨taken, left, -, -, -, stops⟩ :=
    (declarationMachine limit).run_stops .naming q.dequeue.2
  have state : ((declarationMachine limit).run .naming q.dequeue.2).state = .closing d.1 d.2 := by
    generalize (declarationMachine limit).run .naming q.dequeue.2 = run at *
    cases stops with
    | atEnd => cases accepted
    | leaving _ halts | taking _ halts =>
      cases accepted
      exact (DeclarationState.of_read_ok halts).2
  rw [readBody?, state]
  rfl

theorem read_front {us : List String} {word : String} (isWord : word ≠ endOfInput)
    (begins : q.texts = word :: us) : q.front.text = word ∧ q.dequeue.2.texts = us := by
  obtain ⟨words, first⟩ := q.texts_eq_cons
  have front : q.front.text = word := (List.cons.inj (first.symm.trans begins)).1
  rw [← front] at isWord begins
  rw [texts_dequeue (Token.isEnd_eq_false.mpr isWord)] at begins
  exact ⟨front, (List.cons.inj begins).2⟩

theorem declaration_of_texts {run : Run DeclarationState (String × Statement)}
    {other : TokenQueue} {us ws : List String} {d : String × Statement}
    (parsed : declaration limit q = .ok run) (accepted : run.result = .ok d)
    (read : q.texts = us ++ run.rest.texts) (begins : other.texts = us ++ ws) :
    ∃ run', declaration limit other = .ok run' ∧ run'.result = .ok d ∧ run'.rest.texts = ws ∧
      readBody? limit run' = some d.2 := by
  have acceptsAtWord := declaration_acceptsAtWord limit
  obtain ⟨starts, rfl⟩ := declaration_eq_ok_iff.mp parsed
  have keyword : q.front.text ≠ endOfInput := by
    rw [starts]
    exact Keyword.text_ne_endOfInput _
  rw [texts_dequeue (Token.isEnd_eq_false.mpr keyword)] at read
  obtain ⟨ts, split, -⟩ := acceptsAtWord.run_of_tokens accepted
  cases us with
  | nil =>
    -- The keyword has been taken, so it is not among what is left.
    have lengths := congrArg List.length read
    simp only [TokenQueue.texts, split, List.nil_append, List.length_cons, List.length_map,
      List.length_append] at lengths
    omega
  | cons word us =>
    rw [List.cons_append, List.cons.injEq] at read
    obtain ⟨rfl, read⟩ := read
    obtain ⟨front, behind⟩ := read_front keyword begins
    obtain ⟨result, rests, -⟩ := acceptsAtWord.run_of_texts (declaration_unplaced limit) accepted
      read behind
    have again : declaration limit other = .ok _ :=
      declaration_eq_ok_iff.mpr ⟨front.trans starts, rfl⟩
    exact ⟨_, again, result, rests, readBody?_of_accepted again result⟩

/-! ## Main statement -/

/-- Whatever stands behind the first end token, all parsers come to what they come to without it, and
leave it in place. And where a statement or a declaration is read off the words of a queue, it is
read off those words whatever follows. -/
theorem unread_irrelevant (limit : Option Nat) :
    (∀ xs ys : List String,
      let whole := TokenQueue.ofTexts (xs ++ [endOfInput] ++ ys)
      let alone := TokenQueue.ofTexts xs
      let behind := TokenQueue.ofTexts ys
      (∀ q : TokenQueue, (q.followedBy behind).texts = q.texts ++ ys ++ [endOfInput]) ∧
      statement limit whole = (statement limit alone).followedBy behind ∧
      block limit whole = (block limit alone).followedBy behind ∧
      program limit whole = (program limit alone).followedBy behind ∧
      ifStatement limit whole = (ifStatement limit alone).map (·.followedBy behind) ∧
      whileStatement limit whole = (whileStatement limit alone).map (·.followedBy behind) ∧
      callStatement whole = (callStatement alone).map (fun (s, left) => (s, left.followedBy behind)) ∧
      declaration limit whole = (declaration limit alone).map (·.followedBy behind) ∧
      (declaration limit whole).map (readBody? limit) =
        (declaration limit alone).map (readBody? limit)) ∧
    ∀ (q other : TokenQueue) (us vs ws : List String), q.texts = us ++ vs → other.texts = us ++ ws →
      (∀ s, (statement limit q).result = .ok s → (statement limit q).rest.texts = vs →
        (statement limit other).result = .ok s ∧ (statement limit other).rest.texts = ws) ∧
      ∀ run d, declaration limit q = .ok run → run.result = .ok d → run.rest.texts = vs →
        ∃ run', declaration limit other = .ok run' ∧ run'.result = .ok d ∧ run'.rest.texts = ws ∧
          readBody? limit run' = some d.2 := by
  refine ⟨fun xs ys => ?_, fun q other us vs ws begins begins' => ⟨?_, ?_⟩⟩
  · simp only [TokenQueue.ofTexts_followedBy]
    refine ⟨fun q => ?_, Machine.run_followedBy _ _ _ _, Machine.run_followedBy _ _ _ _,
      Machine.run_followedBy _ _ _ _, ifStatement_followedBy limit _ _,
      whileStatement_followedBy limit _ _, callStatement_followedBy _ _,
      declaration_followedBy limit _ _, ?_⟩
    · rw [TokenQueue.texts, TokenQueue.toList_followedBy, List.map_append, List.append_assoc,
        ← TokenQueue.texts_ofTexts]
      rfl
    · rw [declaration_followedBy]
      cases declaration limit (.ofTexts xs) with
      | ok run => exact congrArg Except.ok (readBody?_followedBy run _)
      | error violation => rfl
  · rintro s accepted rfl
    exact statement_of_texts accepted begins begins'
  · rintro run d parsed accepted rfl
    exact declaration_of_texts parsed accepted begins begins'

/-- A call before END, and before an end token; a declaration before another one, and before BEGIN. -/
theorem unread_irrelevant_fronts :
    ((statement none (.ofTexts ["move", "END"])).result = .ok (.call "move") ∧
      (statement none (.ofTexts ["move", endOfInput, "x"])).result = .ok (.call "move")) ∧
    ∃ run run', declaration none (.ofTexts ["INSTRUCTION", "a", "IS", "END", "a", "END"]) = .ok run ∧
      run.result = .ok ("a", .empty) ∧
      declaration none (.ofTexts ["INSTRUCTION", "a", "IS", "END", "a", "BEGIN"]) = .ok run' ∧
      run'.result = .ok ("a", .empty) := by
  have call : (statement none (.ofTexts ["move", "END"])).result = .ok (.call "move") := by rfl
  have declared : ∃ run,
      declaration none (.ofTexts ["INSTRUCTION", "a", "IS", "END", "a", "END"]) = .ok run ∧
        run.result = .ok ("a", .empty) ∧ run.rest.texts = ["END", endOfInput] :=
    ⟨_, rfl, rfl, rfl⟩
  obtain ⟨run, parsed, accepted, left⟩ := declared
  have statements := ((unread_irrelevant none).2 (.ofTexts ["move", "END"])
    (.ofTexts ["move", endOfInput, "x"]) ["move"] ["END", endOfInput]
    [endOfInput, "x", endOfInput] rfl rfl).1
  have declarations := ((unread_irrelevant none).2
    (.ofTexts ["INSTRUCTION", "a", "IS", "END", "a", "END"])
    (.ofTexts ["INSTRUCTION", "a", "IS", "END", "a", "BEGIN"]) ["INSTRUCTION", "a", "IS", "END", "a"]
    ["END", endOfInput] ["BEGIN", endOfInput] rfl rfl).2
  obtain ⟨run', parsed', accepted', -⟩ := declarations run _ parsed accepted left
  exact ⟨⟨call, (statements _ call rfl).1⟩, run, run', parsed, accepted, parsed', accepted'⟩

end Parser

end RobotLang
