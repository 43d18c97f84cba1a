import RobotLang.Proofs.ClosedDeclarations
import RobotLang.Proofs.DescentProgram
import RobotLang.Proofs.Reports

/-!
The log of a program. The parser has written the declarations that were closed, in the order of the
text, and behind them either the program or the error that it comes back with (`program_logged`). The
procedure for declarations and the machine are followed declaration by declaration
(`declarationsLog`).
-/

namespace RobotLang.Parser

open Logged

variable {τ : Type} {q : TokenQueue} {target : τ} {fuel : Nat} {word : String}
  {declared : List (String × Statement)} {context : Context}

/-! ## Events -/

/-- The events of declarations that have been read, which are held newest first. -/
def closedEvents (declared : List (String × Statement)) : List Event :=
  declared.reverse.map fun d => .closed d.1

theorem closedEvents_cons (d : String × Statement) (declared : List (String × Statement)) :
    closedEvents (d :: declared) = closedEvents declared ++ [.closed d.1] := by
  simp [closedEvents]

/-- The closed declarations and the end of a run. -/
def Run.events (run : Run ProgramState Program) : List Event :=
  (closedDeclarations run).map .closed ++ [match run.result with
    | .ok p => .parsed p.name p.context.size
    | .error e => .fault e]

theorem closedEvents_of_unrepeated {run : Run ProgramState Program}
    (new : ∀ e, run.result = .error e → e.fault.kind ≠ .duplicateInstruction) :
    (closedDeclarations run).map .closed = closedEvents run.state.declared := by
  rw [closedDeclarations_of_unrepeated new, List.map_map]
  rfl

/-! ## Declarations -/

/-- What the declarations of a program come to, behind those that have been read, and the events that
are written for them. -/
inductive DeclarationsLog (word : String) (declared : List (String × Statement)) (q : TokenQueue)
    (target : τ) : Outcome τ Context × List Event → Prop
  | read {context : Context} {declared' : List (String × Statement)} {left : TokenQueue}
      {log : List Event} (declares : Declares context declared')
      (shorter : left.tokens.length ≤ q.tokens.length)
      (notDeclaring : left.front.text ≠ Keyword.instruction.text)
      (ran : (programMachine (some nestingLimit)).run (.declaring word declared) q =
        (programMachine (some nestingLimit)).run (.declaring word declared') left)
      (events : closedEvents declared ++ log = closedEvents declared') :
      DeclarationsLog word declared q target (.value context ⟨left, target⟩, log)
  | refused {e : ParseError} {s : ProgramState} {left : TokenQueue} {log : List Event}
      (ran : (programMachine (some nestingLimit)).run (.declaring word declared) q =
        ⟨s, .error e, left⟩)
      (events : closedEvents declared ++ log = Run.events ⟨s, .error e, left⟩) :
      DeclarationsLog word declared q target (.refused e ⟨left, target⟩, log)

theorem declarationsLog {turns : Nat} (word : String) (declares : Declares context declared)
    (short : q.tokens.length ≤ fuel) (enough : q.tokens.length < turns) (target : τ) :
    DeclarationsLog word declared q target
      (Logging.declarations fuel turns context ⟨q, target⟩) := by
  -- By induction on the turns: each takes a declaration, and the events stand behind those of before.
  induction turns generalizing q context declared with
  | zero => cases enough
  | succ turns ih =>
    rw [Logging.declarations, front_bind]
    split
    · rename_i starts
      have goesOn : q.atEnd = false := atEnd_eq_false_of_keyword starts
      have shorter := TokenQueue.dequeue_shorter goesOn
      have shifted : (programMachine (some nestingLimit)).onWord (.declaring word declared)
          q.front = .shift (.inDeclaration word declared q.front.span .naming) := by
        simp only [programMachine, ProgramState.read, starts, if_true]
      have ran := Machine.run_of_shift goesOn shifted
      have came := instruction_eq_run short .empty
      have rest := (declarationMachine (some nestingLimit)).run_length_le .naming q.dequeue.2
      have reports := (reports_instruction fuel).inside (τ := τ) .empty
      rw [declaration, if_pos starts] at came
      cases declarationRun word declared q.front.span q.dequeue.2 with
      | refused result program =>
        obtain ⟨s, program⟩ := program
        simp only [Run.bodyOutcome, result] at came
        rw [bind_refused (reports.eq_refused (Procedure.inside_refused came))]
        refine .refused (ran.trans program) ?_
        obtain ⟨t, -, points⟩ := (declaration_findsAt _).pointsAt result
        rw [Run.events, closedEvents_of_unrepeated]
        · rfl
        · rintro _ ⟨⟩
          exact points.notRepeated
      | repeated result old program =>
        obtain ⟨s, program⟩ := program
        simp only [Run.bodyOutcome, result] at came
        rw [bind_value (reports.eq_value (Procedure.inside_value came)), ensure_bind,
          declares.isNone, old]
        refine .refused (ran.trans program) ?_
        simp [Run.events, closedDeclarations, closedEvents, ProgramState.declared]
      | taken result body new fit program =>
        simp only [Run.bodyOutcome, result, body, Option.getD_some] at came
        rw [bind_value (reports.eq_value (Procedure.inside_value came)), ensure_bind,
          declares.isNone, new]
        -- The declaration has taken its INSTRUCTION at least, and another turn is left.
        have after := ih (declares.insert new fit) (Nat.le_trans rest (by omega)) (by omega)
        rw [Bool.not_false, if_pos rfl]
        generalize Logging.declarations _ _ _ _ = outcome at after ⊢
        cases after with
        | read declares shorter' notDeclaring ran' events =>
          refine .read declares (by omega) notDeclaring ((ran.trans program).trans ran') ?_
          rw [← events, closedEvents_cons]
          exact (List.append_assoc ..).symm
        | refused ran' events =>
          refine .refused ((ran.trans program).trans ran') ?_
          rw [← events, closedEvents_cons]
          exact (List.append_assoc ..).symm
    · rename_i notDeclaring
      exact .read declares (Nat.le_refl _) notDeclaring rfl (List.append_nil _)

/-! ## Behind the declarations -/

inductive ProgramState.Declared (declared : List (String × Statement)) : ProgramState → Prop
  | inBody (name : String) (b : BlockState) : Declared declared (.inBody name declared b)
  | closing (name : String) (body : Statement) : Declared declared (.closing name declared body)
  | complete (name : String) (body : Statement) : Declared declared (.complete name declared body)

theorem ProgramState.Declared.read {limit : Option Nat} {s next : ProgramState} {t : Token}
    (behind : s.Declared declared) (shifted : s.read limit t = .shift next) :
    next.Declared declared := by
  cases behind with
  | inBody name b =>
    simp only [ProgramState.read] at shifted
    split at shifted
    · cases shifted
      exact .inBody name _
    · cases shifted
    · split at shifted <;> cases shifted
      exact .closing name _
  | closing name body =>
    simp only [ProgramState.read] at shifted
    split at shifted <;> cases shifted
    exact .complete name body
  | complete name body => cases shifted

theorem ProgramState.Declared.declared_eq {s : ProgramState} (behind : s.Declared declared) :
    s.declared = declared := by
  cases behind <;> rfl

/-- Behind the declarations none is closed, and no name repeats. -/
theorem closedDeclarations_of_declared {s : ProgramState} (behind : s.Declared declared) :
    (closedDeclarations ((programMachine (some nestingLimit)).run s q)).map .closed =
      closedEvents declared := by
  obtain ⟨taken, left, -, words, moved, stops⟩ :=
    (programMachine (some nestingLimit)).run_stops s q
  have behind : ((programMachine (some nestingLimit)).run s q).state.Declared declared :=
    Machine.moves_invariant (fun s _ => s.Declared declared) [] behind
      (fun _ _ _ _ behind _ shifted => behind.read shifted) words moved
  rw [closedEvents_of_unrepeated, behind.declared_eq]
  intro e failed
  rcases stops.front with ⟨-, comes⟩ | ⟨-, _, halts⟩
  · exact (program_onEnd_error (comes.trans failed)).2.notRepeated
  · rw [failed] at halts
    rcases ProgramState.read_error halts with refused | repeats
    · exact refused.notRepeated
    · generalize ((programMachine (some nestingLimit)).run s q).state = s at behind repeats
      cases repeats
      cases behind

theorem closedDeclarations_of_notDeclaring (notDeclaring : q.front.text ≠ Keyword.instruction.text) :
    (closedDeclarations ((programMachine (some nestingLimit)).run (.declaring word declared)
      q)).map .closed = closedEvents declared := by
  have begins : (programMachine (some nestingLimit)).Expects (.declaring word declared) q.front
      (q.front.text = KeywordPlace.beforeProgramBody.keyword.text)
      (.keywordDue .beforeProgramBody) (.inBody word declared .start) :=
    ⟨by simp only [programMachine, ProgramState.read, notDeclaring, if_false]; rfl, rfl⟩
  by_cases spelled : q.front.text = KeywordPlace.beforeProgramBody.keyword.text
  · rw [begins.run_taken (atEnd_eq_false_of_keyword spelled) spelled]
    exact closedDeclarations_of_declared (.inBody word .start)
  · rw [begins.run_refused spelled, closedEvents_of_unrepeated]
    · rfl
    · rintro _ ⟨⟩ ⟨⟩

/-! ## Programs -/

/-- The log of what follows the declarations ends with the program or with the error. -/
theorem mainPart_logged (named : isIdentifier word = true) (declares : Declares context declared)
    (notDeclaring : q.front.text ≠ Keyword.instruction.text) (short : q.tokens.length ≤ fuel)
    (target : τ) :
    let run := (programMachine (some nestingLimit)).run (.declaring word declared) q
    ∃ last, Logging.mainPart fuel word context ⟨q, target⟩ = (run.returned target, [last]) ∧
      closedEvents declared ++ [last] = run.events := by
  intro run
  have came : Descent.mainPart fuel word context ⟨q, target⟩ = run.returned target :=
    program_body named declares notDeclaring short target
  have reports := reports_mainPart (τ := τ) fuel word context
  have closed : (closedDeclarations run).map Event.closed = closedEvents declared :=
    closedDeclarations_of_notDeclaring notDeclaring
  rw [Run.returned] at came ⊢
  rw [Run.events, closed]
  cases result : run.result with
  | ok p =>
    rw [result] at came
    exact ⟨_, reports.eq_value came, rfl⟩
  | error e =>
    rw [result] at came
    exact ⟨_, reports.eq_refused came, rfl⟩

/-- What a logged procedure comes to that does what a run does. -/
def Run.logged (run : Run ProgramState Program) (target : τ) : Outcome τ Program × List Event :=
  (run.returned target, run.events)

/-- Where a keyword is due before the declarations, it is enough that the log is right behind it. -/
theorem keyword_logged {place : KeywordPlace} {s next : ProgramState}
    {k : Unit → Logged τ Program} (early : s.declared = [])
    (due : (programMachine (some nestingLimit)).Expects s q.front
      (q.front.text = place.keyword.text) (.keywordDue place) next)
    (behind : q.dequeue.2.tokens.length < q.tokens.length → k () ⟨q.dequeue.2, target⟩ =
      ((programMachine (some nestingLimit)).run next q.dequeue.2).logged target) :
    (Logging.keyword place >>= k) ⟨q, target⟩ =
      ((programMachine (some nestingLimit)).run s q).logged target := by
  by_cases spelled : q.front.text = place.keyword.text
  · have goesOn := atEnd_eq_false_of_keyword spelled
    rw [bind_value ((quiet_keyword place).eq_value (keyword_value spelled)), due.run_taken goesOn spelled,
      ← behind (TokenQueue.dequeue_shorter goesOn)]
    rfl
  · rw [bind_refused ((quiet_keyword place).eq_refused (keyword_error spelled)),
      due.run_refused spelled]
    simp [Run.logged, Run.returned, Run.events, closedDeclarations, early]

theorem declarations_logged (named : isIdentifier word = true) (short : q.tokens.length < fuel)
    (target : τ) :
    (do
      let context ← Logging.declarations fuel fuel .empty
      Logging.mainPart fuel word context : Logged τ Program) ⟨q, target⟩ =
      ((programMachine (some nestingLimit)).run (.declaring word []) q).logged target := by
  have none : Declares .empty [] := ⟨.refl _, .nil, by simp⟩
  have came := declarationsLog word none (Nat.le_of_lt short) short target
  generalize h : Logging.declarations fuel fuel .empty ⟨q, target⟩ = outcome at came
  cases came with
  | read declares shorter notDeclaring ran events =>
    obtain ⟨last, rest, closed⟩ :=
      mainPart_logged named declares notDeclaring (by omega : _ ≤ fuel) target
    rw [bind_value h, rest, ran, Run.logged, ← closed, ← events]
    rfl
  | refused ran events =>
    rw [bind_refused h, ran]
    exact Prod.ext rfl events

theorem program_logged (short : q.tokens.length < fuel) (target : τ) :
    Logging.program fuel ⟨q, target⟩ = (program (some nestingLimit) q).logged target := by
  rw [Logging.program, program]
  refine keyword_logged rfl ⟨rfl, rfl⟩ fun shorter => ?_
  have short : q.dequeue.2.tokens.length < fuel := by omega
  generalize q.dequeue.2 = q at short ⊢
  have names : (programMachine (some nestingLimit)).Expects .naming q.front
      (isIdentifier q.front.text = true) (.nameDue .program) (.named q.front.text) := ⟨rfl, rfl⟩
  cases named : isIdentifier q.front.text with
  | false =>
    rw [bind_refused ((quiet_name .program).eq_refused (name_error named)),
      names.run_refused (by simp [named])]
    rfl
  | true =>
    have goesOn := atEnd_eq_false_of_isIdentifier named
    have shorter := TokenQueue.dequeue_shorter goesOn
    rw [bind_value ((quiet_name .program).eq_value (name_value named)), names.run_taken goesOn named]
    refine keyword_logged rfl ⟨rfl, rfl⟩ fun shorter' => ?_
    exact declarations_logged named (by omega) target

end Parser

end RobotLang
