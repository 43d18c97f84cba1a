import RobotLang.Parser.Machine

/-!
Runs of machines. `Machine.moves` is what a machine makes of tokens before the end of the input. A
run takes tokens as `moves` does and then stops in one of three ways (`run_stops`), and a property
that each taken token keeps holds where the run stops (`moves_invariant`). A machine that does the
work of another one on part of its states moves as that one does (`Embeds.shift_moves`,
`Embeds.error_moves`), and where states, places and values are told from those of another machine,
so is the run (`Maps.run_placed`).
-/

namespace RobotLang

theorem Token.isEnd_eq_false {t : Token} : t.isEnd = false ↔ t.text ≠ endOfInput := by
  simp [Token.isEnd]

theorem Token.isEnd_of_texts {ts : List Token} {words : List String}
    (texts : ts.map (·.text) = words) (absent : endOfInput ∉ words) :
    ∀ t ∈ ts, t.isEnd = false := by
  intro t mem
  rw [isEnd_eq_false]
  intro isEnd
  rw [← texts, ← isEnd] at absent
  exact absent (List.mem_map_of_mem mem)

theorem Token.endOfInput_not_mem {ts : List Token} (words : ∀ t ∈ ts, t.isEnd = false) :
    endOfInput ∉ ts.map (·.text) := by
  intro mem
  obtain ⟨t, inside, isEnd⟩ := List.mem_map.mp mem
  exact isEnd_eq_false.mp (words t inside) isEnd

namespace TokenQueue

theorem toList_eq_append {q left : TokenQueue} {taken : List Token} :
    q.toList = taken ++ left.toList ↔ q = ⟨taken ++ left.tokens, left.endSpan⟩ := by
  cases q with
  | mk tokens endSpan =>
    simp only [toList, closing, ← List.append_assoc, mk.injEq]
    constructor
    · intro h
      obtain ⟨same, last⟩ := List.append_inj' h rfl
      simp only [List.cons.injEq, Token.mk.injEq, and_true, true_and] at last
      exact ⟨same, last⟩
    · rintro ⟨rfl, rfl⟩
      rfl

theorem split_of_texts {q : TokenQueue} {words : List String}
    (h : q.texts = words ++ [endOfInput]) :
    q.tokens.map (·.text) = words ∧
      q.toList = q.tokens ++ (⟨[], q.endSpan⟩ : TokenQueue).toList := by
  rw [texts, toList, List.map_append] at h
  exact ⟨(List.append_inj' h rfl).1, rfl⟩

/-- Words before the end of the input that the queue begins with are those of its first tokens. -/
theorem split_of_prefix {q : TokenQueue} {words : List String} (begins : words <+: q.texts)
    (absent : endOfInput ∉ words) :
    ∃ (ts : List Token) (left : TokenQueue),
      q.toList = ts ++ left.toList ∧ ts.map (·.text) = words := by
  rw [texts, toList, List.map_append, List.map_singleton, List.prefix_concat_iff] at begins
  rcases begins with rfl | ⟨more, same⟩
  · exact absurd List.mem_concat_self absent
  · obtain ⟨ts, behind, split, texts, -⟩ := List.map_eq_append_iff.mp same.symm
    exact ⟨ts, ⟨behind, q.endSpan⟩, by simp [toList, closing, split], texts⟩

theorem toList_eq_cons (q : TokenQueue) : ∃ rest, q.toList = q.front :: rest := by
  cases q with
  | mk tokens endSpan => cases tokens <;> exact ⟨_, rfl⟩

theorem texts_eq_cons (q : TokenQueue) : ∃ words, q.texts = q.front.text :: words := by
  obtain ⟨rest, first⟩ := q.toList_eq_cons
  exact ⟨rest.map (·.text), by rw [texts, first, List.map_cons]⟩

end TokenQueue

namespace Parser.Machine

variable {σ τ α β : Type} {m : Machine σ α} {n : Machine τ β} {s next : σ} {ts us : List Token}

/-- What a machine makes of tokens, none of which is the end of the input. -/
def moves (m : Machine σ α) : σ → List Token → Move σ α
  | s, [] => .shift s
  | s, t :: ts =>
    match m.onWord s t with
    | .shift next => m.moves next ts
    | .halt taken result => .halt taken result

theorem moves_append_of_shift (h : m.moves s ts = .shift next) (us : List Token) :
    m.moves s (ts ++ us) = m.moves next us := by
  induction ts generalizing s with
  | nil =>
    cases h
    rfl
  | cons t ts ih =>
    simp only [moves] at h
    simp only [List.cons_append, moves]
    split at h
    · exact ih h
    · cases h

theorem moves_append_of_halt {taken : Bool} {result : Except ParseError α}
    (h : m.moves s ts = .halt taken result) (us : List Token) :
    m.moves s (ts ++ us) = .halt taken result := by
  induction ts generalizing s with
  | nil => cases h
  | cons t ts ih =>
    simp only [moves] at h
    simp only [List.cons_append, moves]
    split at h
    · exact ih h
    · exact h

/-- What holds at first and after each token that is taken holds after all of them. -/
theorem moves_invariant (Inv : σ → List String → Prop) (before : List String)
    (first : Inv s before)
    (step : ∀ s before t next, Inv s before → t.isEnd = false → m.onWord s t = .shift next →
      Inv next (before ++ [t.text]))
    (words : ∀ t ∈ ts, t.isEnd = false) (h : m.moves s ts = .shift next) :
    Inv next (before ++ ts.map (·.text)) := by
  induction ts generalizing s before with
  | nil =>
    cases h
    simpa using first
  | cons t ts ih =>
    obtain ⟨word, words⟩ := List.forall_mem_cons.mp words
    simp only [moves] at h
    split at h
    · rename_i between shifted
      simpa using ih _ (step s before t between first word shifted) words h
    · cases h

/-! ## Runs -/

theorem runTokens_of_shift {t : Token} {place : Option Span} (word : t.isEnd = false)
    (h : m.onWord s t = .shift next) :
    m.runTokens place s (t :: ts) = m.runTokens place next ts := by
  simp only [runTokens, word, Bool.false_eq_true, if_false, h]

theorem runTokens_of_halt {t : Token} {place : Option Span} {taken : Bool}
    {result : Except ParseError α} (word : t.isEnd = false)
    (h : m.onWord s t = .halt taken result) :
    m.runTokens place s (t :: ts) = ⟨s, result, ⟨if taken then ts else t :: ts, place⟩⟩ := by
  simp only [runTokens, word, Bool.false_eq_true, if_false, h]
  cases taken <;> rfl

theorem runTokens_append (place : Option Span) (words : ∀ t ∈ ts, t.isEnd = false)
    (h : m.moves s ts = .shift next) (us : List Token) :
    m.runTokens place s (ts ++ us) = m.runTokens place next us := by
  induction ts generalizing s with
  | nil =>
    cases h
    rfl
  | cons t ts ih =>
    obtain ⟨word, words⟩ := List.forall_mem_cons.mp words
    simp only [moves] at h
    split at h
    · rename_i shifted
      rw [List.cons_append, runTokens_of_shift word shifted, ih words h]
    · cases h

/-- How a run ends that has taken tokens up to a queue: at the end of the input, or at a word that
it leaves or takes. -/
inductive Stops (m : Machine σ α) (q : TokenQueue) : Run σ α → Prop
  | atEnd {s : σ} (ended : q.atEnd = true) : Stops m q ⟨s, m.onEnd s q.front.span, q⟩
  | leaving {s : σ} {result : Except ParseError α} (goesOn : q.atEnd = false)
      (halts : m.onWord s q.front = .halt false result) : Stops m q ⟨s, result, q⟩
  | taking {s : σ} {result : Except ParseError α} (goesOn : q.atEnd = false)
      (halts : m.onWord s q.front = .halt true result) : Stops m q ⟨s, result, q.dequeue.2⟩

/-- What a run comes to is what the machine comes to at the front of the queue. -/
theorem Stops.front {q : TokenQueue} {run : Run σ α} (stops : m.Stops q run) :
    (q.atEnd = true ∧ m.onEnd run.state q.front.span = run.result) ∨
      q.atEnd = false ∧ ∃ taken, m.onWord run.state q.front = .halt taken run.result := by
  cases stops with
  | atEnd ended => exact .inl ⟨ended, rfl⟩
  | leaving goesOn halts => exact .inr ⟨goesOn, false, halts⟩
  | taking goesOn halts => exact .inr ⟨goesOn, true, halts⟩

theorem runTokens_stops (m : Machine σ α) (place : Option Span) (s : σ) (ts : List Token) :
    ∃ taken left, ts = taken ++ left ∧ (∀ t ∈ taken, t.isEnd = false) ∧
      m.moves s taken = .shift (m.runTokens place s ts).state ∧
      m.Stops ⟨left, place⟩ (m.runTokens place s ts) := by
  induction ts generalizing s with
  | nil => exact ⟨[], [], rfl, by simp, rfl, .atEnd rfl⟩
  | cons t ts ih =>
    unfold runTokens
    split
    · rename_i ended
      exact ⟨[], t :: ts, rfl, by simp, rfl, .atEnd ended⟩
    · rename_i word
      have word : t.isEnd = false := by simpa using word
      split
      · rename_i between shifted
        obtain ⟨taken, left, rfl, words, moved, stops⟩ := ih between
        refine ⟨t :: taken, left, rfl, List.forall_mem_cons.mpr ⟨word, words⟩, ?_, stops⟩
        simpa only [moves, shifted] using moved
      · rename_i result halts
        have stops : m.Stops ⟨t :: ts, place⟩ _ := .taking word halts
        simp only [TokenQueue.dequeue, TokenQueue.atEnd, TokenQueue.front, List.headD_cons, word,
          Bool.false_eq_true, if_false, List.tail_cons] at stops
        exact ⟨[], t :: ts, rfl, by simp, rfl, stops⟩
      · rename_i result halts
        exact ⟨[], t :: ts, rfl, by simp, rfl, .leaving word halts⟩

theorem run_stops (m : Machine σ α) (s : σ) (q : TokenQueue) :
    ∃ taken left, q.toList = taken ++ left.toList ∧ (∀ t ∈ taken, t.isEnd = false) ∧
      m.moves s taken = .shift (m.run s q).state ∧ m.Stops left (m.run s q) := by
  obtain ⟨taken, left, h, words, moved, stops⟩ := m.runTokens_stops q.endSpan s q.tokens
  refine ⟨taken, ⟨left, q.endSpan⟩, ?_, words, moved, stops⟩
  simp [TokenQueue.toList, TokenQueue.closing, h]

theorem run_of_moves {q left : TokenQueue} (split : q.toList = ts ++ left.toList)
    (words : ∀ t ∈ ts, t.isEnd = false) (h : m.moves s ts = .shift next) :
    m.run s q = m.run next left := by
  rw [TokenQueue.toList_eq_append] at split
  subst split
  exact runTokens_append _ words h left.tokens

theorem run_of_atEnd {q : TokenQueue} (ended : q.atEnd = true) :
    m.run s q = ⟨s, m.onEnd s q.front.span, q⟩ := by
  rcases q with ⟨_ | ⟨t, ts⟩, place⟩
  · rfl
  · simp only [TokenQueue.atEnd, TokenQueue.front, List.headD_cons] at ended
    simp [run, runTokens, ended, TokenQueue.front]

theorem run_of_shift {q : TokenQueue} (goesOn : q.atEnd = false)
    (h : m.onWord s q.front = .shift next) : m.run s q = m.run next q.dequeue.2 := by
  rcases q with ⟨_ | ⟨t, ts⟩, place⟩
  · cases goesOn
  · have word : t.isEnd = false := goesOn
    have shifted : m.runTokens place s (t :: ts) = m.runTokens place next ts :=
      runTokens_of_shift word h
    simpa only [run, TokenQueue.dequeue, goesOn, Bool.false_eq_true, if_false, List.tail_cons]
      using shifted

theorem run_of_halt {q : TokenQueue} {taken : Bool} {result : Except ParseError α}
    (goesOn : q.atEnd = false) (h : m.onWord s q.front = .halt taken result) :
    m.run s q = ⟨s, result, if taken then q.dequeue.2 else q⟩ := by
  rcases q with ⟨_ | ⟨t, ts⟩, place⟩
  · cases goesOn
  · have word : t.isEnd = false := goesOn
    have halted : m.runTokens place s (t :: ts) = ⟨s, result, _⟩ := runTokens_of_halt word h
    cases taken <;>
      simpa only [run, TokenQueue.dequeue, goesOn, Bool.false_eq_true, if_false, if_true,
        List.tail_cons] using halted

theorem run_of_taken {q left : TokenQueue} {t : Token} {result : Except ParseError α}
    (split : q.toList = ts ++ [t] ++ left.toList) (words : ∀ u ∈ ts, u.isEnd = false)
    (word : t.isEnd = false) (moved : m.moves s ts = .shift next)
    (halts : m.onWord next t = .halt true result) : m.run s q = ⟨next, result, left⟩ := by
  rw [TokenQueue.toList_eq_append] at split
  subst split
  rw [run, List.append_assoc, runTokens_append _ words moved]
  exact runTokens_of_halt word halts

theorem result_of_halt {q left : TokenQueue} {taken : Bool} {result : Except ParseError α}
    (split : q.toList = ts ++ left.toList) (words : ∀ t ∈ ts, t.isEnd = false)
    (h : m.moves s ts = .halt taken result) : (m.run s q).result = result := by
  rw [TokenQueue.toList_eq_append] at split
  subst split
  simp only [run]
  induction ts generalizing s with
  | nil => cases h
  | cons t ts ih =>
    obtain ⟨word, words⟩ := List.forall_mem_cons.mp words
    simp only [moves] at h
    split at h
    · rename_i shifted
      rw [List.cons_append, runTokens_of_shift word shifted, ih words h]
    · rename_i halts
      rw [h] at halts
      rw [List.cons_append, runTokens_of_halt word halts]

/-! ## Machines inside machines -/

/-- Wherever the first machine takes a token or refuses it, the second one does the same from the
state that stands for it. -/
structure Embeds (m : Machine σ α) (n : Machine τ β) (f : σ → τ) : Prop where
  shift : ∀ {s t next}, m.onWord s t = .shift next → n.onWord (f s) t = .shift (f next)
  error : ∀ {s t taken e}, m.onWord s t = .halt taken (.error e) →
    n.onWord (f s) t = .halt taken (.error e)

variable {f : σ → τ}

theorem Embeds.shift_moves (e : m.Embeds n f) (h : m.moves s ts = .shift next) :
    n.moves (f s) ts = .shift (f next) := by
  induction ts generalizing s with
  | nil =>
    cases h
    rfl
  | cons t ts ih =>
    simp only [moves] at h
    split at h
    · rename_i shifted
      simpa only [moves, e.shift shifted] using ih h
    · cases h

theorem Embeds.error_moves (e : m.Embeds n f) {taken : Bool} {fault : ParseError}
    (h : m.moves s ts = .halt taken (.error fault)) :
    n.moves (f s) ts = .halt taken (.error fault) := by
  induction ts generalizing s with
  | nil => cases h
  | cons t ts ih =>
    simp only [moves] at h
    split at h
    · rename_i shifted
      simpa only [moves, e.shift shifted] using ih h
    · rename_i halts
      rw [h] at halts
      simp only [moves, e.error halts]

end Parser.Machine

/-! ## Places and values that are told from others -/

/-- The token at the place that is made of its own. -/
def Token.placed (place : Option Span → Option Span) (t : Token) : Token :=
  { t with span := place t.span }

def TokenQueue.placed (place : Option Span → Option Span) (q : TokenQueue) : TokenQueue :=
  ⟨q.tokens.map (Token.placed place), place q.endSpan⟩

def ParseError.placed (place : Option Span → Option Span) (e : ParseError) : ParseError :=
  { e with span := place e.span }

theorem TokenQueue.front_placed (place : Option Span → Option Span) (q : TokenQueue) :
    (q.placed place).front = q.front.placed place := by
  rcases q with ⟨_ | ⟨t, ts⟩, last⟩ <;> rfl

namespace Parser

variable {σ τ α β : Type}

/-- The result for what is told of the value, with the place that is made of the error's own. -/
def resultOn (place : Option Span → Option Span) (value : α → β) :
    Except ParseError α → Except ParseError β
  | .ok a => .ok (value a)
  | .error e => .error (e.placed place)

def Move.on (f : σ → τ) (place : Option Span → Option Span) (value : α → β) : Move σ α → Move τ β
  | .shift next => .shift (f next)
  | .halt taken result => .halt taken (resultOn place value result)

def Run.on (f : σ → τ) (place : Option Span → Option Span) (value : α → β) (run : Run σ α) :
    Run τ β :=
  ⟨f run.state, resultOn place value run.result, run.rest.placed place⟩

/-- On other states and places, the second machine does what is told from what the first one does. -/
structure Machine.Maps (m : Machine σ α) (n : Machine τ β) (f : σ → τ)
    (place : Option Span → Option Span) (value : α → β) : Prop where
  word : ∀ s t, n.onWord (f s) (t.placed place) = (m.onWord s t).on f place value
  ending : ∀ s span, n.onEnd (f s) (place span) = resultOn place value (m.onEnd s span)

theorem Machine.Maps.run_placed {m : Machine σ α} {n : Machine τ β} {f : σ → τ}
    {place : Option Span → Option Span} {value : α → β} (h : m.Maps n f place value) (s : σ)
    (q : TokenQueue) : n.run (f s) (q.placed place) = (m.run s q).on f place value := by
  obtain ⟨ts, last⟩ := q
  simp only [run, TokenQueue.placed]
  induction ts generalizing s with
  | nil => simp only [List.map_nil, runTokens, h.ending]; rfl
  | cons t ts ih =>
    have sameEnd : (t.placed place).isEnd = t.isEnd := rfl
    have sameSpan : (t.placed place).span = place t.span := rfl
    simp only [List.map_cons, runTokens, sameEnd, sameSpan, h.word, h.ending]
    split
    · rfl
    · cases m.onWord s t with
      | shift next => exact ih next
      | halt taken result => cases taken <;> rfl

end Parser

end RobotLang
