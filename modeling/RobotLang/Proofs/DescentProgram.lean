import RobotLang.Proofs.Acceptance
import RobotLang.Proofs.Assembly
import RobotLang.Proofs.DescentDeclaration

/-!
The procedure for programs does what the machine does. The context that the procedure fills holds
what the state has declared (`Declares`), so both of them know the same names, and the program that
is put together at the end meets every demand.

Main statements: `program_eq_run`, `programInto_eq_run`.
-/

namespace RobotLang.Parser

open Procedure Descent

variable {τ : Type} {q left : TokenQueue} {fuel : Nat} {word : String}

/-! ## Declarations in programs -/

/-- What becomes of a declaration in a program, when it has been read by itself. -/
inductive DeclarationRun (word : String) (declared : List (String × Statement))
    (place : Option Span) (q : TokenQueue) (run : Run DeclarationState (String × Statement)) : Prop
  | refused {e : ParseError} (result : run.result = .error e)
      (program : ∃ s, (programMachine (some nestingLimit)).run
        (.inDeclaration word declared place .naming) q =
          ⟨.inDeclaration word declared place s, .error e, run.rest⟩)
  | repeated {d : String × Statement} (result : run.result = .ok d)
      (old : ProgramState.isDeclared d.1 declared = true)
      (program : ∃ s, (programMachine (some nestingLimit)).run
        (.inDeclaration word declared place .naming) q =
          ⟨.inDeclaration word declared place s, .error ⟨.duplicateInstruction d.1, place⟩,
            run.rest⟩)
  | taken {d : String × Statement} (result : run.result = .ok d)
      (body : readBody? (some nestingLimit) run = some d.2)
      (new : ProgramState.isDeclared d.1 declared = false)
      (fit : DeclarationAt (some nestingLimit) d)
      (program : (programMachine (some nestingLimit)).run
        (.inDeclaration word declared place .naming) q =
          (programMachine (some nestingLimit)).run (.declaring word (d :: declared)) run.rest)

theorem declarationRun (word : String) (declared : List (String × Statement)) (place : Option Span)
    (q : TokenQueue) :
    DeclarationRun word declared place q
      ((declarationMachine (some nestingLimit)).run .naming q) := by
  obtain ⟨taken, left, split, words, moved, stops⟩ :=
    (declarationMachine (some nestingLimit)).run_stops .naming q
  have embeds : (declarationMachine (some nestingLimit)).Embeds (programMachine (some nestingLimit))
      (.inDeclaration word declared place) := declaration_embeds_program word declared place
  have program := Machine.run_of_moves split words (embeds.shift_moves moved)
  obtain ⟨sound, -⟩ := DeclarationState.sound_of_moves words moved
  generalize (declarationMachine (some nestingLimit)).run .naming q = run at *
  cases stops with
  | atEnd ended =>
    exact .refused rfl ⟨_, program.trans (Machine.run_of_atEnd ended)⟩
  | leaving goesOn halts =>
    rename_i s result
    cases result with
    | error e =>
      exact .refused rfl ⟨_, program.trans (Machine.run_of_halt goesOn (embeds.error halts))⟩
    | ok d =>
      cases (DeclarationState.of_read_ok halts).1
  | taking goesOn halts =>
    rename_i s result
    cases result with
    | error e =>
      exact .refused rfl ⟨_, program.trans (Machine.run_of_halt goesOn (embeds.error halts))⟩
    | ok d =>
      obtain ⟨-, rfl⟩ := DeclarationState.of_read_ok halts
      obtain ⟨-, fit, -⟩ := sound.read_ok halts
      have halts : (DeclarationState.closing d.1 d.2).read (some nestingLimit) left.front =
          .halt true (.ok d) := halts
      cases old : ProgramState.isDeclared d.1 declared with
      | true =>
        have repeats : (programMachine (some nestingLimit)).onWord
            (.inDeclaration word declared place (.closing d.1 d.2)) left.front =
              .halt true (.error ⟨.duplicateInstruction d.1, place⟩) := by
          simp only [programMachine, ProgramState.read, halts, old, if_true]
        exact .repeated rfl old ⟨_, program.trans (Machine.run_of_halt goesOn repeats)⟩
      | false =>
        have shifted : (programMachine (some nestingLimit)).onWord
            (.inDeclaration word declared place (.closing d.1 d.2)) left.front =
              .shift (.declaring word (d :: declared)) := by
          simp [programMachine, ProgramState.read, halts, old]
        exact .taken rfl rfl old fit (program.trans (Machine.run_of_shift goesOn shifted))

/-- The context holds the declarations that have been read. -/
structure Declares (context : Context) (declared : List (String × Statement)) : Prop where
  perm : context.entries.Perm declared
  distinct : (declared.map (·.1)).Nodup
  fit : ∀ d ∈ declared, DeclarationAt (some nestingLimit) d

theorem Declares.isNone {context : Context} {declared : List (String × Statement)}
    (declares : Declares context declared) (instruction : String) :
    (context.get? instruction).isNone = !ProgramState.isDeclared instruction declared := by
  rw [Bool.eq_iff_iff, Option.isNone_iff_eq_none, Context.get?, List.lookup_eq_none_iff,
    Bool.not_eq_true', ProgramState.isDeclared_eq_false, ← (declares.perm.map (·.1)).mem_iff]
  simp only [bne_iff_ne, List.mem_map, not_exists, not_and]
  exact forall₂_congr fun d _ => ne_comm

theorem Declares.insert {context : Context} {declared : List (String × Statement)}
    {d : String × Statement} (declares : Declares context declared)
    (new : ProgramState.isDeclared d.1 declared = false)
    (fit : DeclarationAt (some nestingLimit) d) :
    Declares (context.insert d.1 d.2) (d :: declared) := by
  rw [ProgramState.isDeclared_eq_false] at new
  have absent : d.1 ∉ context.entries.map (·.1) := by
    rwa [(declares.perm.map (·.1)).mem_iff]
  exact ⟨(Context.perm_insertEntry absent).trans (declares.perm.cons d),
    List.nodup_cons.mpr ⟨new, declares.distinct⟩, List.forall_mem_cons.mpr ⟨fit, declares.fit⟩⟩

/-! ## Programs -/

variable {declared : List (String × Statement)} {context : Context} {target : τ}

theorem program_encloses (word : String) (declared : List (String × Statement)) :
    (programMachine (some nestingLimit)).Encloses (.inBody word declared) .afterProgramBody
      (.closing word declared) where
  toEmbeds := block_embeds_program word declared
  ending h := by
    simp only [programMachine, ProgramState.finish, h, Option.getD_some]
    rfl
  due := rfl
  word h := by simp only [programMachine, ProgramState.read, h]
  early h := by
    simp only [programMachine, ProgramState.finish, h, Option.getD_none]
    rfl

theorem replaceContext_ok (p : Program) (declares : Declares context declared) :
    p.replaceContext context = .ok (p.context, { p with context }) := by
  have checked : context.entries.forM Program.checkEntry = .ok () := by
    refine Program.checked_iff.mpr fun d mem => ?_
    obtain ⟨named, body⟩ := declares.fit d (declares.perm.mem_iff.mp mem)
    exact ⟨named, (blockAt_some_iff.mp body).1⟩
  rw [Program.replaceContext, checked]
  rfl

theorem assembled_eq {body : List Statement} (named : isIdentifier word = true)
    (declares : Declares context declared) (target : τ) :
    assembled word context (.block body) ⟨q, target⟩ =
      .value ⟨word, context, .block body⟩ ⟨q, target⟩ := by
  have setName : Program.unnamed.setName word = .ok { Program.unnamed with name := word } := by
    simp only [Program.setName, named, if_true]
  rw [assembled, setName, demanded_bind, replaceContext_ok _ declares, demanded_bind]
  rfl

/-- Behind the body: END, the name again, and the end of the input. -/
theorem program_end {body : List Statement} (named : isIdentifier word = true)
    (declares : Declares context declared) (ends : endsBlock q.front = true) (target : τ) :
    (do
      keyword .afterProgramBody
      closingName .program word
      let t ← front
      let ended ← atEnd
      ensure ended ⟨.afterProgram word (found t), t.span⟩
      assembled word context (.block body) : Procedure τ Program) ⟨q, target⟩ =
      ((programMachine (some nestingLimit)).run
        (.inBody word declared ⟨[], body.reverse, .statement⟩) q).returned target := by
  have encloses := program_encloses word declared
  by_cases isEnd : q.front.text = Keyword.end.text
  case neg =>
    rw [keyword_refused isEnd, encloses.run_no_end ends isEnd]
    rfl
  rw [keyword_taken isEnd, encloses.run_end isEnd]
  generalize q.dequeue.2 = q
  have closes : (programMachine (some nestingLimit)).Expects (.closing word declared (.block body))
      q.front (q.front.text = word) (.closingName .program word)
      (.complete word declared (.block body)) := ⟨rfl, rfl⟩
  by_cases same : q.front.text = word
  case neg =>
    rw [closingName_refused same, closes.run_refused same]
    rfl
  have goesOn : q.atEnd = false := atEnd_eq_false_of_isIdentifier (by rwa [same])
  rw [closingName_taken same, closes.run_taken goesOn same, front_bind, atEnd_bind, ensure_bind]
  generalize q.dequeue.2 = q
  cases goesOn : q.atEnd with
  | true =>
    have whole : Context.ofEntries declared = context :=
      (Context.ofEntries_eq_iff declares.distinct).mpr declares.perm
    rw [if_pos rfl, assembled_eq named declares, Machine.run_of_atEnd goesOn]
    simp only [programMachine, ProgramState.finish, whole]
    rfl
  | false =>
    have notEnd : q.front.isEnd = false := goesOn
    have halts : (programMachine (some nestingLimit)).onWord (.complete word declared (.block body))
        q.front = .refuse (.afterProgram word (found q.front)) q.front := by
      simp [programMachine, ProgramState.read, found, notEnd]
    rw [Machine.run_of_halt goesOn halts]
    rfl

/-- Behind the declarations: BEGIN and the body. -/
theorem program_body (named : isIdentifier word = true) (declares : Declares context declared)
    (notDeclaring : q.front.text ≠ Keyword.instruction.text) (short : q.tokens.length ≤ fuel)
    (target : τ) :
    (do
      keyword .beforeProgramBody
      let body ← inside (Descent.block fuel 0) .empty
      keyword .afterProgramBody
      closingName .program word
      let t ← front
      let ended ← atEnd
      ensure ended ⟨.afterProgram word (found t), t.span⟩
      assembled word context body.2 : Procedure τ Program) ⟨q, target⟩ =
      ((programMachine (some nestingLimit)).run (.declaring word declared) q).returned target := by
  have begins : (programMachine (some nestingLimit)).Expects (.declaring word declared) q.front
      (q.front.text = KeywordPlace.beforeProgramBody.keyword.text)
      (.keywordDue .beforeProgramBody) (.inBody word declared .start) :=
    ⟨by simp only [programMachine, ProgramState.read, notDeclaring, if_false]; rfl, rfl⟩
  refine keyword_eq_run (·.returned target) (fun _ => rfl) begins fun shorter => ?_
  have short : q.dequeue.2.tokens.length < fuel := by omega
  generalize q.dequeue.2 = q at short ⊢
  have run := blockRun (program_encloses word declared).toHosts short .empty
  generalize h : Descent.block fuel 0 ⟨q, .empty⟩ = outcome at run
  cases run with
  | read _ ends ran =>
    rw [bind_value (inside_value h), ran]
    exact program_end named declares ends target
  | refused _ ran =>
    rw [bind_refused (inside_refused h), ran]
    rfl

/-- What the declarations of a program come to. -/
inductive DeclarationsRun (word : String) (declared : List (String × Statement)) (q : TokenQueue)
    (target : τ) : Outcome τ Context → Prop
  | read {context : Context} {declared' : List (String × Statement)} {left : TokenQueue}
      (declares : Declares context declared') (shorter : left.tokens.length ≤ q.tokens.length)
      (notDeclaring : left.front.text ≠ Keyword.instruction.text)
      (ran : (programMachine (some nestingLimit)).run (.declaring word declared) q =
        (programMachine (some nestingLimit)).run (.declaring word declared') left) :
      DeclarationsRun word declared q target (.value context ⟨left, target⟩)
  | refused {e : ParseError} {s : ProgramState} {left : TokenQueue}
      (ran : (programMachine (some nestingLimit)).run (.declaring word declared) q =
        ⟨s, .error e, left⟩) :
      DeclarationsRun word declared q target (.refused e ⟨left, target⟩)

theorem declarationsRun {turns : Nat} (word : String) (declares : Declares context declared)
    (short : q.tokens.length ≤ fuel) (enough : q.tokens.length < turns) (target : τ) :
    DeclarationsRun word declared q target (declarations fuel turns context ⟨q, target⟩) := by
  induction turns generalizing q context declared with
  | zero => cases enough
  | succ turns ih =>
    rw [declarations, front_bind]
    split
    · rename_i starts
      have goesOn : q.atEnd = false := atEnd_eq_false_of_keyword starts
      have shorter := TokenQueue.dequeue_shorter goesOn
      have shifted : (programMachine (some nestingLimit)).onWord (.declaring word declared)
          q.front = .shift (.inDeclaration word declared q.front.span .naming) := by
        simp only [programMachine, ProgramState.read, starts, if_true]
      have ran := Machine.run_of_shift goesOn shifted
      have came := instruction_eq_run short .empty
      have rest := (declarationMachine (some nestingLimit)).run_length_le .naming q.dequeue.2
      rw [declaration, if_pos starts] at came
      cases declarationRun word declared q.front.span q.dequeue.2 with
      | refused result program =>
        obtain ⟨s, program⟩ := program
        simp only [Run.bodyOutcome, result] at came
        rw [bind_refused (inside_refused came)]
        exact .refused (ran.trans program)
      | repeated result old program =>
        obtain ⟨s, program⟩ := program
        simp only [Run.bodyOutcome, result] at came
        rw [bind_value (inside_value came), ensure_bind, declares.isNone, old]
        exact .refused (ran.trans program)
      | taken result body new fit program =>
        simp only [Run.bodyOutcome, result, body, Option.getD_some] at came
        rw [bind_value (inside_value came), ensure_bind, declares.isNone, new]
        -- The declaration has taken its INSTRUCTION at least, and another turn is left.
        have after := ih (declares.insert new fit) (Nat.le_trans rest (by omega)) (by omega)
        rw [Bool.not_false, if_pos rfl]
        generalize declarations _ _ _ _ = outcome at after ⊢
        cases after with
        | read declares shorter' notDeclaring ran' =>
          exact .read declares (by omega) notDeclaring ((ran.trans program).trans ran')
        | refused ran' => exact .refused ((ran.trans program).trans ran')
    · rename_i notDeclaring
      exact .read declares (Nat.le_refl _) notDeclaring rfl

/-- Behind the name: IS, the declarations and the rest. -/
theorem program_rest (named : isIdentifier word = true) (short : q.tokens.length < fuel)
    (target : τ) :
    (do
      keyword (.afterProgramName word)
      let context ← declarations fuel fuel .empty
      keyword .beforeProgramBody
      let body ← inside (Descent.block fuel 0) .empty
      keyword .afterProgramBody
      closingName .program word
      let t ← front
      let ended ← atEnd
      ensure ended ⟨.afterProgram word (found t), t.span⟩
      assembled word context body.2 : Procedure τ Program) ⟨q, target⟩ =
      ((programMachine (some nestingLimit)).run (.named word) q).returned target := by
  refine keyword_eq_run (·.returned target) (fun _ => rfl) ⟨rfl, rfl⟩ fun shorter => ?_
  have short : q.dequeue.2.tokens.length < fuel := by omega
  generalize q.dequeue.2 = q at short ⊢
  have none : Declares .empty [] := ⟨.refl _, .nil, by simp⟩
  have run := declarationsRun word none (Nat.le_of_lt short) short target
  generalize h : declarations fuel fuel .empty ⟨q, target⟩ = outcome at run
  cases run with
  | read declares shorter notDeclaring ran =>
    rw [bind_value h, ran]
    exact program_body named declares notDeclaring (by omega) target
  | refused ran =>
    rw [bind_refused h, ran]
    rfl

theorem program_eq_run (short : q.tokens.length < fuel) (target : τ) :
    Descent.program fuel ⟨q, target⟩ = (program (some nestingLimit) q).returned target := by
  rw [Descent.program, program]
  refine keyword_eq_run (·.returned target) (fun _ => rfl) ⟨rfl, rfl⟩ fun shorter => ?_
  have short : q.dequeue.2.tokens.length < fuel := by omega
  generalize q.dequeue.2 = q at short ⊢
  have names : (programMachine (some nestingLimit)).Expects .naming q.front
      (isIdentifier q.front.text = true) (.nameDue .program) (.named q.front.text) := ⟨rfl, rfl⟩
  cases named : isIdentifier q.front.text with
  | false =>
    rw [name_refused named, names.run_refused (by simp [named])]
    rfl
  | true =>
    have goesOn := atEnd_eq_false_of_isIdentifier named
    have shorter := TokenQueue.dequeue_shorter goesOn
    rw [name_taken named, names.run_taken goesOn named]
    exact program_rest named (by omega) target

theorem programInto_eq_run (short : q.tokens.length < fuel) (target : Program) :
    Descent.programInto fuel ⟨q, target⟩ = (program (some nestingLimit) q).outcome target := by
  have came := program_eq_run short target
  rw [programInto]
  cases result : (program (some nestingLimit) q).result with
  | ok p =>
    simp only [Run.returned, result] at came
    rw [bind_value came]
    simp only [Run.outcome, result]
    rfl
  | error e =>
    simp only [Run.returned, result] at came
    rw [bind_refused came]
    simp only [Run.outcome, result]

end RobotLang.Parser
