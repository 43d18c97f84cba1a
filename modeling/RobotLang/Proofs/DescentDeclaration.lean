import RobotLang.Proofs.DescentRun
import RobotLang.Proofs.ProgramWords

/-!
The procedure for declarations does what the machine does. Word by word the procedure and the state
agree on what is due, and in between they read a block alike, which both of them close with END
(`Machine.Encloses`). Main statement: `instruction_eq_run`.
-/

namespace RobotLang.Parser

open Procedure Descent

variable {σ τ α β γ : Type} {m : Machine σ γ} {s next : σ} {q left : TokenQueue}

theorem Machine.run_length_le (m : Machine σ α) (s : σ) (q : TokenQueue) :
    (m.run s q).rest.tokens.length ≤ q.tokens.length :=
  (m.runTokens_rest q.endSpan s q.tokens).1.length_le

/-- A run ends at a token that is not what is due. -/
theorem Machine.run_of_due (fault : Found → Fault)
    (word : q.atEnd = false → m.onWord s q.front = .refuse (fault (.word q.front.text)) q.front)
    (ending : m.onEnd s q.front.span = .error ⟨fault .endOfInput, q.front.span⟩) :
    m.run s q = ⟨s, .error ⟨fault (found q.front), q.front.span⟩, q⟩ := by
  cases goesOn : q.atEnd with
  | true =>
    have isEnd : q.front.isEnd = true := goesOn
    rw [run_of_atEnd goesOn, ending, found, if_pos isEnd]
  | false =>
    have notEnd : q.front.isEnd = false := goesOn
    rw [run_of_halt goesOn (word goesOn), found, notEnd]
    rfl

theorem atEnd_eq_false_of_isIdentifier (named : isIdentifier q.front.text = true) :
    q.atEnd = false := by
  rw [TokenQueue.atEnd, Token.isEnd_eq_false]
  exact ne_endOfInput_of_isIdentifier named

/-! ## Words that are due -/

section

variable {target : τ}

theorem keyword_value {place : KeywordPlace} (spelled : q.front.text = place.keyword.text) :
    keyword place ⟨q, target⟩ = .value () ⟨q.dequeue.2, target⟩ := by
  rw [keyword, front_bind, ensure_bind, if_pos (by simpa using spelled)]
  rfl

theorem keyword_error {place : KeywordPlace} (other : q.front.text ≠ place.keyword.text) :
    keyword place ⟨q, target⟩ =
      .refused ⟨.keywordDue place (found q.front), q.front.span⟩ ⟨q, target⟩ := by
  rw [keyword, front_bind, ensure_bind, if_neg (by simpa using other)]

theorem keyword_taken {place : KeywordPlace} {k : Unit → Procedure τ α}
    (spelled : q.front.text = place.keyword.text) :
    (keyword place >>= k) ⟨q, target⟩ = k () ⟨q.dequeue.2, target⟩ :=
  bind_value (keyword_value spelled)

theorem keyword_refused {place : KeywordPlace} {k : Unit → Procedure τ α}
    (other : q.front.text ≠ place.keyword.text) :
    (keyword place >>= k) ⟨q, target⟩ =
      .refused ⟨.keywordDue place (found q.front), q.front.span⟩ ⟨q, target⟩ :=
  bind_refused (keyword_error other)

theorem name_value {named : Named} (isName : isIdentifier q.front.text = true) :
    name named ⟨q, target⟩ = .value (q.front.text, q.front.span) ⟨q.dequeue.2, target⟩ := by
  rw [name, front_bind, ensure_bind, if_pos isName, dequeue_bind, TokenQueue.dequeue_fst]
  rfl

theorem name_error {named : Named} (other : isIdentifier q.front.text = false) :
    name named ⟨q, target⟩ =
      .refused ⟨.nameDue named (found q.front), q.front.span⟩ ⟨q, target⟩ := by
  rw [name, front_bind, ensure_bind, if_neg (by simp [other])]

theorem name_taken {named : Named} {k : String × Option Span → Procedure τ α}
    (isName : isIdentifier q.front.text = true) :
    (name named >>= k) ⟨q, target⟩ = k (q.front.text, q.front.span) ⟨q.dequeue.2, target⟩ :=
  bind_value (name_value isName)

theorem name_refused {named : Named} {k : String × Option Span → Procedure τ α}
    (other : isIdentifier q.front.text = false) :
    (name named >>= k) ⟨q, target⟩ =
      .refused ⟨.nameDue named (found q.front), q.front.span⟩ ⟨q, target⟩ :=
  bind_refused (name_error other)

theorem closingName_taken {named : Named} {word : String} {k : Unit → Procedure τ α}
    (same : q.front.text = word) :
    (closingName named word >>= k) ⟨q, target⟩ = k () ⟨q.dequeue.2, target⟩ := by
  refine bind_value ?_
  rw [closingName, front_bind, ensure_bind, if_pos (by simpa using same)]
  rfl

theorem closingName_refused {named : Named} {word : String} {k : Unit → Procedure τ α}
    (other : q.front.text ≠ word) :
    (closingName named word >>= k) ⟨q, target⟩ =
      .refused ⟨.closingName named word (found q.front), q.front.span⟩ ⟨q, target⟩ := by
  refine bind_refused ?_
  rw [closingName, front_bind, ensure_bind, if_neg (by simpa using other)]

/-- A state takes a word that fits, and refuses every other one and the end of the input. -/
structure Machine.Expects (m : Machine σ γ) (s : σ) (t : Token) (fits : Prop) [Decidable fits]
    (fault : Found → Fault) (next : σ) : Prop where
  word : m.onWord s t = if fits then .shift next else .refuse (fault (.word t.text)) t
  ending : m.onEnd s t.span = .error ⟨fault .endOfInput, t.span⟩

variable {fits : Prop} [Decidable fits] {fault : Found → Fault}

theorem Machine.Expects.run_taken (due : m.Expects s q.front fits fault next)
    (goesOn : q.atEnd = false) (holds : fits) : m.run s q = m.run next q.dequeue.2 :=
  Machine.run_of_shift goesOn (by rw [due.word, if_pos holds])

theorem Machine.Expects.run_refused (due : m.Expects s q.front fits fault next) (other : ¬ fits) :
    m.run s q = ⟨s, .error ⟨fault (found q.front), q.front.span⟩, q⟩ :=
  Machine.run_of_due fault (fun _ => by rw [due.word, if_neg other]) due.ending

/-- Where a keyword is due in the procedure and in the machine, it is enough that they agree behind
it. -/
theorem keyword_eq_run {place : KeywordPlace} {k : Unit → Procedure τ α}
    (f : Run σ γ → Outcome τ α) (refuses : ∀ e, f ⟨s, .error e, q⟩ = .refused e ⟨q, target⟩)
    (due : m.Expects s q.front (q.front.text = place.keyword.text) (.keywordDue place) next)
    (behind : q.dequeue.2.tokens.length < q.tokens.length →
      k () ⟨q.dequeue.2, target⟩ = f (m.run next q.dequeue.2)) :
    (keyword place >>= k) ⟨q, target⟩ = f (m.run s q) := by
  by_cases spelled : q.front.text = place.keyword.text
  · have goesOn := atEnd_eq_false_of_keyword spelled
    rw [keyword_taken spelled, due.run_taken goesOn spelled]
    exact behind (TokenQueue.dequeue_shorter goesOn)
  · rw [keyword_refused spelled, due.run_refused spelled, refuses]

end

/-! ## Blocks before END -/

/-- A machine that reads a block and END behind it. -/
structure Machine.Encloses (m : Machine σ γ) (f : BlockState → σ) (place : KeywordPlace)
    (behind : Statement → σ) : Prop extends m.Hosts f where
  due : place.keyword = .«end»
  word : ∀ {b t}, b.step (some nestingLimit) t.text = .close →
    m.onWord (f b) t = if t.text = Keyword.end.text then .shift (behind b.block)
      else .refuse (.keywordDue place (.word t.text)) t
  early : ∀ {b span}, b.endFault? (some nestingLimit) = none →
    m.onEnd (f b) span = .error ⟨.keywordDue place .endOfInput, span⟩

section

variable {f : BlockState → σ} {place : KeywordPlace} {behind : Statement → σ}
  {body : List Statement}

theorem Machine.Encloses.run_end (e : m.Encloses f place behind)
    (isEnd : q.front.text = Keyword.end.text) :
    m.run (f ⟨[], body.reverse, .statement⟩) q = m.run (behind (.block body)) q.dequeue.2 := by
  have ends : endsBlock q.front = true := by simp [endsBlock, isEnd]
  have goesOn : q.atEnd = false := atEnd_eq_false_of_keyword isEnd
  refine Machine.run_of_shift goesOn ?_
  rw [e.word (step_of_endsBlock ends goesOn), if_pos isEnd, BlockState.block, List.reverse_reverse]

theorem Machine.Encloses.run_no_end (e : m.Encloses f place behind)
    (ends : endsBlock q.front = true) (notEnd : q.front.text ≠ Keyword.end.text) :
    m.run (f ⟨[], body.reverse, .statement⟩) q =
      ⟨f ⟨[], body.reverse, .statement⟩,
        .error ⟨.keywordDue place (found q.front), q.front.span⟩, q⟩ := by
  refine Machine.run_of_due (.keywordDue place) ?_ ?_
  · intro goesOn
    rw [e.word (step_of_endsBlock ends goesOn), if_neg notEnd]
  · exact e.early (BlockState.endFault?_eq_none_iff.mpr ⟨rfl, rfl⟩)

end

/-! ## Declarations -/

variable {fuel : Nat} {word : String}

theorem declaration_encloses (word : String) :
    (declarationMachine (some nestingLimit)).Encloses (.inBody word) (.afterInstructionBody word)
      (.closing word) where
  toEmbeds := block_embeds_declaration word
  ending h := by simp only [declarationMachine, DeclarationState.endFault, h, Option.getD_some]
  due := rfl
  word h := by simp only [declarationMachine, DeclarationState.read, h]
  early h := by simp only [declarationMachine, DeclarationState.endFault, h, Option.getD_none]

/-- What the run of a declaration comes to, for a procedure that fills in the body as soon as it has
been read. -/
def Run.bodyOutcome (run : Run DeclarationState (String × Statement)) (target : Statement) :
    Outcome Statement String :=
  let after : Store Statement := ⟨run.rest, (readBody? (some nestingLimit) run).getD target⟩
  match run.result with
  | .ok d => .value d.1 after
  | .error e => .refused e after

theorem closesBefore_of_refusal? {b : BlockState} {t : Token} {fault : Fault}
    (h : b.refusal? t = some fault) : b.closesBefore (some nestingLimit) t = false := by
  unfold BlockState.refusal? at h
  unfold BlockState.closesBefore
  split
  · rename_i isEnd
    rw [if_pos isEnd] at h
    simp [h]
  · rename_i notEnd
    rw [if_neg notEnd] at h
    split at h
    · rename_i refused
      simp only [refused]
    · cases h

theorem closesBefore_of_endsBlock {done : List Statement} {t : Token} (ends : endsBlock t = true) :
    (⟨[], done, .statement⟩ : BlockState).closesBefore (some nestingLimit) t = true := by
  unfold BlockState.closesBefore
  split
  · have mayEnd : (⟨[], done, .statement⟩ : BlockState).endFault? (some nestingLimit) = none :=
      BlockState.endFault?_eq_none_iff.mpr ⟨rfl, rfl⟩
    simp [mayEnd]
  · rename_i notEnd
    simp only [step_of_endsBlock ends (by simpa using notEnd)]

/-- Behind the body: END and the name again. -/
theorem instruction_end {body : List Statement} (named : isIdentifier word = true)
    (ends : endsBlock q.front = true) (target : Statement) :
    (do
      keyword (.afterInstructionBody word)
      closingName .instruction word
      return word : Procedure Statement String) ⟨q, .block body⟩ =
      ((declarationMachine (some nestingLimit)).run (.inBody word ⟨[], body.reverse, .statement⟩)
        q).bodyOutcome target := by
  have encloses := declaration_encloses word
  by_cases isEnd : q.front.text = Keyword.end.text
  case neg =>
    rw [keyword_refused isEnd, encloses.run_no_end ends isEnd]
    simp [Run.bodyOutcome, readBody?, DeclarationState.body?, closesBefore_of_endsBlock ends,
      BlockState.block]
  rw [keyword_taken isEnd, encloses.run_end isEnd]
  generalize q.dequeue.2 = q
  by_cases same : q.front.text = word
  case neg =>
    rw [closingName_refused same, Machine.run_of_due (.closingName .instruction word)]
    · rfl
    · intro _
      simp only [declarationMachine, DeclarationState.read, same, if_false]
    · rfl
  have goesOn : q.atEnd = false := atEnd_eq_false_of_isIdentifier (by rwa [same])
  have halts : (declarationMachine (some nestingLimit)).onWord (.closing word (.block body))
      q.front = .halt true (.ok (word, .block body)) := by
    simp only [declarationMachine, DeclarationState.read, same, if_true]
  rw [closingName_taken same, Machine.run_of_halt goesOn halts]
  rfl

/-- Behind IS. -/
theorem instruction_body (named : isIdentifier word = true) (short : q.tokens.length < fuel)
    (target : Statement) :
    (do
      Descent.block fuel 0
      keyword (.afterInstructionBody word)
      closingName .instruction word
      return word : Procedure Statement String) ⟨q, target⟩ =
        ((declarationMachine (some nestingLimit)).run (.inBody word .start) q).bodyOutcome
          target := by
  have run := blockRun (declaration_encloses word).toHosts short target
  generalize h : Descent.block fuel 0 ⟨q, target⟩ = outcome at run
  cases run with
  | read _ ends ran =>
    rw [bind_value h, ran]
    exact instruction_end named ends target
  | refused refuses ran =>
    rw [bind_refused h, ran]
    simp [Run.bodyOutcome, readBody?, DeclarationState.body?, closesBefore_of_refusal? refuses]

/-- Behind INSTRUCTION. -/
theorem instruction_rest (short : q.tokens.length ≤ fuel) (target : Statement) :
    (do
      let named ← name .instruction
      ensure (!isPrimitive named.1) ⟨.primitiveName named.1, named.2⟩
      keyword (.afterInstructionName named.1)
      Descent.block fuel 0
      keyword (.afterInstructionBody named.1)
      closingName .instruction named.1
      return named.1 : Procedure Statement String) ⟨q, target⟩ =
      ((declarationMachine (some nestingLimit)).run .naming q).bodyOutcome target := by
  cases named : isIdentifier q.front.text with
  | false =>
    rw [name_refused named, Machine.run_of_due (.nameDue .instruction)]
    · rfl
    · intro _
      simp [declarationMachine, DeclarationState.read, named]
    · rfl
  | true =>
    have goesOn := atEnd_eq_false_of_isIdentifier named
    have shorter := TokenQueue.dequeue_shorter goesOn
    rw [name_taken named, ensure_bind]
    cases primitive : isPrimitive q.front.text with
    | true =>
      have halts : (declarationMachine (some nestingLimit)).onWord .naming q.front =
          .halt true (.error ⟨.primitiveName q.front.text, q.front.span⟩) := by
        simp [declarationMachine, DeclarationState.read, named, primitive]
      rw [Machine.run_of_halt goesOn halts]
      rfl
    | false =>
      have shifted : (declarationMachine (some nestingLimit)).onWord .naming q.front =
          .shift (.named q.front.text) := by
        simp [declarationMachine, DeclarationState.read, named, primitive]
      rw [Machine.run_of_shift goesOn shifted, Bool.not_false, if_pos rfl]
      generalize q.front.text = word, q.dequeue.2 = q at *
      refine keyword_eq_run (·.bodyOutcome target) (fun _ => rfl) ⟨rfl, rfl⟩ fun shorter' => ?_
      exact instruction_body named (by omega) target

theorem instruction_eq_run (short : q.tokens.length ≤ fuel) (target : Statement) :
    Descent.instruction fuel ⟨q, target⟩ =
      match declaration (some nestingLimit) q with
      | .ok run => run.bodyOutcome target
      | .error violation => .violated violation := by
  rw [Descent.instruction, front_bind, demand_bind, declaration]
  by_cases starts : q.front.text = Keyword.instruction.text
  · have shorter := TokenQueue.dequeue_shorter (atEnd_eq_false_of_keyword starts)
    have short : q.dequeue.2.tokens.length ≤ fuel := by omega
    rw [if_pos (by simpa using starts), if_pos starts, dequeue_bind]
    exact instruction_rest short target
  · rw [if_neg (by simpa using starts), if_neg starts]

theorem DeclarationState.of_read_ok {limit : Option Nat} {s : DeclarationState} {t : Token}
    {taken : Bool} {d : String × Statement} (h : s.read limit t = .halt taken (.ok d)) :
    taken = true ∧ s = .closing d.1 d.2 := by
  cases s with
  | naming =>
    simp only [DeclarationState.read] at h
    split at h
    · split at h <;> cases h
    · cases h
  | named name =>
    simp only [DeclarationState.read] at h
    split at h <;> cases h
  | inBody name b =>
    simp only [DeclarationState.read] at h
    split at h
    · cases h
    · cases h
    · split at h <;> cases h
  | closing name body =>
    simp only [DeclarationState.read] at h
    split at h <;> cases h
    exact ⟨rfl, rfl⟩

end RobotLang.Parser
