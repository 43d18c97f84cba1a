import RobotLang.Proofs.Machine
import RobotLang.Parser.Program

/-!
Places do not matter. Nothing that the parsers do depends on where a token stands: to forget the
places before a run is to forget them in all that comes of it (`Machine.Unplaced`, `run_unplaced`).
So runs on queues of the same words agree up to places (`program_sameRun`, `block_sameRun` and so
on).
-/

namespace RobotLang

@[simp] theorem mapError_ok {ε ε' α : Type} (f : ε → ε') (a : α) :
    (Except.ok a : Except ε α).mapError f = .ok a := rfl

@[simp] theorem mapError_error {ε ε' α : Type} (f : ε → ε') (e : ε) :
    (Except.error e : Except ε α).mapError f = .error (f e) := rfl

/-! ## Forgetting places -/

def Token.unplaced (t : Token) : Token := { t with span := none }

def TokenQueue.unplaced (q : TokenQueue) : TokenQueue := ⟨q.tokens.map Token.unplaced, none⟩

def ParseError.unplaced (e : ParseError) : ParseError := { e with span := none }

namespace TokenQueue

variable {q r : TokenQueue}

theorem texts_eq_iff : q.texts = r.texts ↔ q.tokens.map (·.text) = r.tokens.map (·.text) := by
  simp only [texts, toList, List.map_append, List.map_cons, List.map_nil, closing,
    List.append_left_inj]

theorem unplaced_eq_iff : q.unplaced = r.unplaced ↔ q.texts = r.texts := by
  have words (q : TokenQueue) : q.unplaced = ofTexts (q.tokens.map (·.text)) := by
    simp [unplaced, ofTexts, Function.comp_def, Token.unplaced]
  rw [texts_eq_iff, words, words]
  constructor
  · intro same
    simpa [ofTexts, Function.comp_def] using congrArg (fun q => q.tokens.map (·.text)) same
  · intro same
    rw [same]

theorem length_eq_of_texts (same : q.texts = r.texts) : q.length = r.length := by
  simpa [length] using congrArg List.length (texts_eq_iff.mp same)

end TokenQueue

namespace Parser

variable {σ α : Type} {limit : Option Nat}

def Move.unplaced (f : σ → σ) : Move σ α → Move σ α
  | .shift next => .shift (f next)
  | .halt taken result => .halt taken (result.mapError ParseError.unplaced)

@[simp] theorem Move.unplaced_shift (f : σ → σ) (next : σ) :
    (.shift next : Move σ α).unplaced f = .shift (f next) := rfl

@[simp] theorem Move.unplaced_refuse (f : σ → σ) (fault : Fault) (t : Token) :
    (Move.refuse fault t : Move σ α).unplaced f = Move.refuse fault t.unplaced := rfl

@[simp] theorem Move.unplaced_ok (f : σ → σ) (taken : Bool) (a : α) :
    (.halt taken (.ok a) : Move σ α).unplaced f = .halt taken (.ok a) := rfl

@[simp] theorem Move.unplaced_error (f : σ → σ) (taken : Bool) (e : ParseError) :
    (.halt taken (.error e) : Move σ α).unplaced f = .halt taken (.error e.unplaced) := rfl

@[simp] theorem Move.unplaced_ite (f : σ → σ) (c : Prop) [Decidable c] (x y : Move σ α) :
    (if c then x else y).unplaced f = if c then x.unplaced f else y.unplaced f :=
  apply_ite _ c x y

def Run.unplaced (f : σ → σ) (run : Run σ α) : Run σ α :=
  ⟨f run.state, run.result.mapError ParseError.unplaced, run.rest.unplaced⟩

/-- The machine does the same when the places of tokens, and those that its states hold, are
forgotten. -/
structure Machine.Unplaced (m : Machine σ α) (f : σ → σ) : Prop where
  word : ∀ s t, m.onWord (f s) t.unplaced = (m.onWord s t).unplaced f
  ending : ∀ s place, m.onEnd (f s) none = (m.onEnd s place).mapError ParseError.unplaced

theorem resultOn_none (result : Except ParseError α) :
    resultOn (fun _ => none) id result = result.mapError ParseError.unplaced := by
  cases result <;> rfl

theorem Machine.Unplaced.maps {m : Machine σ α} {f : σ → σ} (h : m.Unplaced f) :
    m.Maps m f (fun _ => none) id where
  word := by
    intro s t
    refine (h.word s t).trans ?_
    cases m.onWord s t with
    | shift next => rfl
    | halt taken result => simp only [Move.unplaced, Move.on, resultOn_none]
  ending := by
    intro s place
    rw [resultOn_none]
    exact h.ending s place

theorem Machine.Unplaced.run_unplaced {m : Machine σ α} {f : σ → σ} (h : m.Unplaced f) (s : σ)
    (q : TokenQueue) : m.run (f s) q.unplaced = (m.run s q).unplaced f := by
  refine (h.maps.run_placed s q).trans ?_
  simp only [Run.on, resultOn_none]
  rfl

/-! ## The machines -/

theorem block_unplaced (limit : Option Nat) : (blockMachine limit).Unplaced id where
  word := by
    rintro s ⟨word, place⟩
    simp only [blockMachine, Token.unplaced, id]
    cases s.step limit word <;> simp [Token.unplaced]
  ending := by
    intro s place
    simp only [blockMachine, id]
    cases s.endFault? limit <;> rfl

theorem statement_unplaced (limit : Option Nat) : (statementMachine limit).Unplaced id where
  word := by
    rintro s ⟨word, place⟩
    simp only [statementMachine, Token.unplaced, id]
    cases s.step limit word with
    | shift next => cases single : next.single? <;> simp [single]
    | close => simp [Token.unplaced]
    | refuse fault => simp [Token.unplaced]
  ending := fun _ _ => rfl

theorem DeclarationState.read_unplaced (limit : Option Nat) (s : DeclarationState) (t : Token) :
    s.read limit t.unplaced = (s.read limit t).unplaced id := by
  obtain ⟨word, place⟩ := t
  cases s with
  | naming | named | closing =>
    simp only [read, Move.unplaced_ite, Move.unplaced_shift, Move.unplaced_refuse, Move.unplaced_ok,
      Move.unplaced_error]
    rfl
  | inBody name b =>
    simp only [read, Token.unplaced]
    cases b.step limit word with
    | shift next => rfl
    | close =>
      simp only [Move.unplaced_ite, Move.unplaced_shift, Move.unplaced_refuse]
      rfl
    | refuse fault => rfl

theorem declaration_unplaced (limit : Option Nat) : (declarationMachine limit).Unplaced id where
  word s t := s.read_unplaced limit t
  ending := fun _ _ => rfl

/-- The state without the place at which a declaration begins. -/
def ProgramState.unplaced : ProgramState → ProgramState
  | .inDeclaration name declared _ d => .inDeclaration name declared none d
  | s => s

theorem ProgramState.read_unplaced (limit : Option Nat) (s : ProgramState) (t : Token) :
    s.unplaced.read limit t.unplaced = (s.read limit t).unplaced unplaced := by
  obtain ⟨word, place⟩ := t
  cases s with
  | start | naming | named | declaring | closing =>
    simp only [read, Move.unplaced_ite, Move.unplaced_shift, Move.unplaced_refuse]
    rfl
  | inDeclaration name declared begins d =>
    simp only [unplaced, read, d.read_unplaced]
    cases d.read limit ⟨word, place⟩ with
    | shift next => simp [unplaced]
    | halt taken result =>
      cases result with
      | error e => simp
      | ok d => simp [unplaced, ParseError.unplaced]
  | inBody name declared b =>
    simp only [unplaced, read, Token.unplaced]
    cases b.step limit word with
    | shift next => rfl
    | close =>
      simp only [Move.unplaced_ite, Move.unplaced_shift, Move.unplaced_refuse]
      rfl
    | refuse fault => rfl
  | complete name declared body => rfl

theorem program_unplaced (limit : Option Nat) :
    (programMachine limit).Unplaced ProgramState.unplaced where
  word s t := s.read_unplaced limit t
  ending := by
    intro s place
    have same : s.unplaced.finish limit = s.finish limit := by cases s <;> rfl
    simp only [programMachine, same]
    cases s.finish limit <;> rfl

/-! ## Runs on the same words -/

/-- The runs come to the same value, or to errors that are the same up to their places, and take the
same number of tokens and leave the same words. -/
structure SameRun (q r : TokenQueue) (run run' : Run σ α) : Prop where
  result : run.result.mapError (·.fault) = run'.result.mapError (·.fault)
  taken : q.length - run.rest.length = r.length - run'.rest.length
  left : run.rest.texts = run'.rest.texts

variable {q r : TokenQueue}

theorem fault_of_unplaced {x y : Except ParseError α}
    (h : x.mapError ParseError.unplaced = y.mapError ParseError.unplaced) :
    x.mapError (·.fault) = y.mapError (·.fault) := by
  cases x <;> cases y <;> simp_all [ParseError.unplaced]

theorem Machine.Unplaced.sameRun {m : Machine σ α} {f : σ → σ} (h : m.Unplaced f) (s : σ)
    (same : q.texts = r.texts) :
    SameRun q r (m.run s q) (m.run s r) ∧ f (m.run s q).state = f (m.run s r).state := by
  have runs : (m.run s q).unplaced f = (m.run s r).unplaced f := by
    rw [← h.run_unplaced, ← h.run_unplaced, TokenQueue.unplaced_eq_iff.mpr same]
  simp only [Run.unplaced, Run.mk.injEq] at runs
  obtain ⟨states, results, rests⟩ := runs
  have rests := TokenQueue.unplaced_eq_iff.mp rests
  refine ⟨⟨fault_of_unplaced results, ?_, rests⟩, states⟩
  rw [TokenQueue.length_eq_of_texts same, TokenQueue.length_eq_of_texts rests]

theorem program_sameRun (limit : Option Nat) (same : q.texts = r.texts) :
    SameRun q r (program limit q) (program limit r) :=
  ((program_unplaced limit).sameRun .start same).1

theorem block_sameRun (limit : Option Nat) (same : q.texts = r.texts) :
    SameRun q r (block limit q) (block limit r) :=
  ((block_unplaced limit).sameRun .start same).1

theorem statement_sameRun (limit : Option Nat) (same : q.texts = r.texts) :
    SameRun q r (statement limit q) (statement limit r) :=
  ((statement_unplaced limit).sameRun .start same).1

theorem front_of_texts (same : q.texts = r.texts) : q.front.text = r.front.text := by
  obtain ⟨restQ, firstQ⟩ := q.texts_eq_cons
  obtain ⟨restR, firstR⟩ := r.texts_eq_cons
  rw [firstQ, firstR] at same
  exact (List.cons.inj same).1

theorem ifStatement_sameRun {run : Run BlockState Statement} (same : q.texts = r.texts)
    (h : ifStatement limit q = .ok run) :
    ∃ run', ifStatement limit r = .ok run' ∧ SameRun q r run run' := by
  obtain ⟨starts, rfl⟩ := ifStatement_eq_ok_iff.mp h
  rw [front_of_texts same] at starts
  exact ⟨_, ifStatement_eq_ok_iff.mpr ⟨starts, rfl⟩, statement_sameRun limit same⟩

theorem whileStatement_sameRun {run : Run BlockState Statement} (same : q.texts = r.texts)
    (h : whileStatement limit q = .ok run) :
    ∃ run', whileStatement limit r = .ok run' ∧ SameRun q r run run' := by
  obtain ⟨starts, rfl⟩ := whileStatement_eq_ok_iff.mp h
  rw [front_of_texts same] at starts
  exact ⟨_, whileStatement_eq_ok_iff.mpr ⟨starts, rfl⟩, statement_sameRun limit same⟩

theorem texts_dequeue {q : TokenQueue} (goesOn : q.atEnd = false) :
    q.texts = q.front.text :: q.dequeue.2.texts := by
  rw [TokenQueue.texts, TokenQueue.toList_dequeue goesOn]
  rfl

theorem DeclarationState.body?_congr {s : DeclarationState} {t u : Token} (same : t.text = u.text) :
    s.body? limit t = s.body? limit u := by
  obtain ⟨word, place⟩ := t
  obtain ⟨_, place'⟩ := u
  cases same
  rfl

theorem declaration_sameRun {run : Run DeclarationState (String × Statement)}
    (same : q.texts = r.texts) (h : declaration limit q = .ok run) :
    ∃ run', declaration limit r = .ok run' ∧ SameRun q r run run' ∧
      readBody? limit run = readBody? limit run' := by
  obtain ⟨starts, rfl⟩ := declaration_eq_ok_iff.mp h
  have fronts := front_of_texts same
  have goesOn (q : TokenQueue) (h : q.front.text = Keyword.instruction.text) : q.atEnd = false := by
    rw [TokenQueue.atEnd, Token.isEnd_eq_false, h]
    decide
  have behind : q.dequeue.2.texts = r.dequeue.2.texts := by
    rw [texts_dequeue (goesOn q starts), texts_dequeue (goesOn r (by rwa [← fronts]))] at same
    exact (List.cons.inj same).2
  obtain ⟨⟨result, -, left⟩, states⟩ := (declaration_unplaced limit).sameRun .naming behind
  refine ⟨_, declaration_eq_ok_iff.mpr ⟨fronts ▸ starts, rfl⟩, ⟨result, ?_, left⟩, ?_⟩
  · rw [TokenQueue.length_eq_of_texts same, TokenQueue.length_eq_of_texts left]
  · simp only [id] at states
    rw [readBody?, readBody?, states]
    exact DeclarationState.body?_congr (front_of_texts left)

end Parser

/-! ## Texts of the same words -/

theorem Program.parse_sameTexts {x y : String} (same : (tokenize x).texts = (tokenize y).texts) :
    (parse x).mapError (·.fault) = (parse y).mapError (·.fault) :=
  (Parser.program_sameRun _ same).result

theorem Statement.parse_sameTexts {x y : String} (same : (tokenize x).texts = (tokenize y).texts) :
    (parse x).mapError (·.fault) = (parse y).mapError (·.fault) := by
  obtain ⟨results, -, left⟩ := Parser.block_sameRun (some Parser.nestingLimit) same
  have fronts := Parser.front_of_texts left
  simp only [parse, Parser.statements]
  generalize Parser.block (some Parser.nestingLimit) (tokenize x) = run at *
  generalize Parser.block (some Parser.nestingLimit) (tokenize y) = run' at *
  cases result : run.result with
  | error e =>
    cases result' : run'.result with
    | error e' => simpa [result, result'] using results
    | ok b => simp [result, result'] at results
  | ok b =>
    cases result' : run'.result with
    | error e' => simp [result, result'] at results
    | ok b' =>
      simp only [result, result', mapError_ok, Except.ok.injEq] at results
      subst results
      generalize run.rest.front = t at fronts ⊢
      generalize run'.rest.front = u at fronts ⊢
      obtain ⟨word, place⟩ := t
      obtain ⟨_, place'⟩ := u
      cases fronts
      have sameEnd : (⟨word, place⟩ : Token).isEnd = (⟨word, place'⟩ : Token).isEnd := rfl
      simp only [Parser.found, sameEnd]
      cases (⟨word, place'⟩ : Token).isEnd <;> rfl

theorem Program.parse_ok_sameTexts {x y : String} {p : Program}
    (same : (tokenize x).texts = (tokenize y).texts) (parsed : parse x = .ok p) :
    parse y = .ok p := by
  have results := parse_sameTexts same
  rw [parsed] at results
  cases result : parse y with
  | ok q =>
    rw [result] at results
    cases results
    rfl
  | error e =>
    rw [result] at results
    cases results

end RobotLang
