import RobotLang.Proofs.Machine
import RobotLang.Proofs.ProgramState

/-!
Reading the words of a program. A program whose names and trees are in order is read to its last
word, or refused for a body that is nested too deep, or for an instruction name that repeats
(`program_reading`). The three outcomes are `Machine.Reading`, which is put together along the
words.
-/

namespace RobotLang.Parser

open Statement

variable {σ τ α β : Type} {limit : Option Nat}

/-! ## The outcomes -/

/-- What becomes of tokens that are in order but for the depth of blocks and for repeated names. -/
inductive Machine.Reading (m : Machine σ α) (s : σ) (ts : List Token) (next : σ)
    (fits distinct : Prop) : Prop
  | through (fit : fits) (new : distinct) (moved : m.moves s ts = .shift next)
  | tooDeep (deep : ¬ fits) {taken : Bool} {e : ParseError}
      (halted : m.moves s ts = .halt taken (.error e)) (kind : e.fault.kind = .nestingTooDeep)
  | repeated (old : ¬ distinct) {taken : Bool} {e : ParseError}
      (halted : m.moves s ts = .halt taken (.error e)) (kind : e.fault.kind = .duplicateInstruction)

namespace Machine.Reading

variable {m : Machine σ α} {n : Machine τ β} {s next : σ} {ts us : List Token}
  {f f' d d' : Prop}

theorem done : m.Reading s [] s True True := .through trivial trivial rfl

theorem append {mid : σ} (first : m.Reading s ts mid f d) (second : m.Reading mid us next f' d') :
    m.Reading s (ts ++ us) next (f ∧ f') (d ∧ d') := by
  cases first with
  | through fit new moved =>
    have whole := moves_append_of_shift moved us
    cases second with
    | through fit' new' moved' => exact .through ⟨fit, fit'⟩ ⟨new, new'⟩ (whole.trans moved')
    | tooDeep deep halted kind => exact .tooDeep (fun h => deep h.2) (whole.trans halted) kind
    | repeated old halted kind => exact .repeated (fun h => old h.2) (whole.trans halted) kind
  | tooDeep deep halted kind =>
    exact .tooDeep (fun h => deep h.1) (moves_append_of_halt halted us) kind
  | repeated old halted kind =>
    exact .repeated (fun h => old h.1) (moves_append_of_halt halted us) kind

theorem congr (h : m.Reading s ts next f d) (fits : f ↔ f') (distinct : d ↔ d') :
    m.Reading s ts next f' d' := by
  rw [← propext fits, ← propext distinct]
  exact h

theorem cons (mid : σ) {t : Token} (shifted : m.onWord s t = .shift mid)
    (rest : m.Reading mid ts next f d) :
    m.Reading s (t :: ts) next f d := by
  have first : m.Reading s [t] mid True True :=
    .through trivial trivial (by simp only [moves, shifted])
  exact (first.append rest).congr (by simp) (by simp)

theorem lift {g : σ → τ} (e : m.Embeds n g) (h : m.Reading s ts next f d) :
    n.Reading (g s) ts (g next) f d := by
  cases h with
  | through fit new moved => exact .through fit new (e.shift_moves moved)
  | tooDeep deep halted kind => exact .tooDeep deep (e.error_moves halted) kind
  | repeated old halted kind => exact .repeated old (e.error_moves halted) kind

end Machine.Reading

/-! ## Blocks -/

theorem block_moves_of_shift {s next : BlockState} {ts : List Token}
    (h : s.steps limit (ts.map (·.text)) = .shift next) :
    (blockMachine limit).moves s ts = .shift next := by
  induction ts generalizing s with
  | nil =>
    cases h
    rfl
  | cons t ts ih =>
    simp only [List.map_cons, BlockState.steps] at h
    split at h
    · rename_i between shifted
      have word : (blockMachine limit).onWord s t = .shift between := by
        simp only [blockMachine, shifted]
      simpa only [Machine.moves, word] using ih h
    · cases h
    · cases h

theorem block_moves_of_refuse {s : BlockState} {ts : List Token} {fault : Fault}
    (h : s.steps limit (ts.map (·.text)) = .refuse fault) :
    ∃ place, (blockMachine limit).moves s ts = .halt false (.error ⟨fault, place⟩) := by
  induction ts generalizing s with
  | nil => cases h
  | cons t ts ih =>
    simp only [List.map_cons, BlockState.steps] at h
    split at h
    · rename_i between shifted
      have word : (blockMachine limit).onWord s t = .shift between := by
        simp only [blockMachine, shifted]
      simpa only [Machine.moves, word] using ih h
    · cases h
    · rename_i refused
      cases h
      have word : (blockMachine limit).onWord s t = .refuse fault t := by
        simp only [blockMachine, refused]
      exact ⟨t.span, by simp only [Machine.moves, word, Move.refuse]⟩

theorem block_reading (limit : Option Nat) {body : List Statement} {ts : List Token}
    (shaped : Body body) (words : ts.map (·.text) = wordsAll body) :
    (blockMachine limit).Reading .start ts ⟨[], body.reverse, .statement⟩
      (Allows limit (depthAll body)) True := by
  have h := BlockState.steps_wordsAll limit shaped
  rw [← words] at h
  split at h
  · rename_i fits
    exact .through fits trivial (block_moves_of_shift h)
  · rename_i deep
    obtain ⟨place, halted⟩ := block_moves_of_refuse h
    exact .tooDeep deep halted rfl

/-- A machine that takes and refuses words inside a body as a block does. -/
theorem block_embeds {n : Machine τ β} {f : BlockState → τ}
    (shift : ∀ {b t next}, b.step limit t.text = .shift next →
      n.onWord (f b) t = .shift (f next))
    (refuse : ∀ {b t fault}, b.step limit t.text = .refuse fault →
      n.onWord (f b) t = .refuse fault t) : (blockMachine limit).Embeds n f where
  shift := by
    intro s t next h
    simp only [blockMachine] at h
    split at h <;> cases h
    rename_i shifted
    exact shift shifted
  error := by
    intro s t taken e h
    simp only [blockMachine] at h
    split at h <;> cases h
    rename_i refused
    exact refuse refused

theorem block_embeds_declaration (name : String) :
    (blockMachine limit).Embeds (declarationMachine limit) (.inBody name) :=
  block_embeds (fun h => by simp only [declarationMachine, DeclarationState.read, h])
    (fun h => by simp only [declarationMachine, DeclarationState.read, h])

theorem block_embeds_program (name : String) (declared : List (String × Statement)) :
    (blockMachine limit).Embeds (programMachine limit) (.inBody name declared) :=
  block_embeds (fun h => by simp only [programMachine, ProgramState.read, h])
    (fun h => by simp only [programMachine, ProgramState.read, h])

/-! ## Declarations -/

theorem declaration_embeds_program (name : String) (declared : List (String × Statement))
    (place : Option Span) :
    (declarationMachine limit).Embeds (programMachine limit)
      (.inDeclaration name declared place) where
  shift := by
    intro s t next h
    simp only [declarationMachine] at h
    simp only [programMachine, ProgramState.read, h]
  error := by
    intro s t taken e h
    simp only [declarationMachine] at h
    simp only [programMachine, ProgramState.read, h]

theorem declaration_reading (limit : Option Nat) {name : String} {body : List Statement}
    {ts : List Token} (named : Program.isInstructionName name = true) (shaped : Body body)
    (words : ts.map (·.text) = [name, Keyword.is.text] ++ wordsAll body ++ [Keyword.end.text]) :
    (declarationMachine limit).Reading .naming ts (.closing name (.block body))
      (Allows limit (depthAll body)) True := by
  rw [isInstructionName_iff] at named
  simp only [List.cons_append, List.nil_append] at words
  obtain ⟨first, rest, rfl, isName, words⟩ := List.map_eq_cons_iff.mp words
  obtain ⟨second, rest, rfl, isIs, words⟩ := List.map_eq_cons_iff.mp words
  obtain ⟨inside, last, rfl, inBody, words⟩ := List.map_eq_append_iff.mp words
  obtain ⟨last, rfl, isEnd⟩ := List.map_eq_singleton_iff.mp words
  subst isName
  have inner := (block_reading limit shaped inBody).lift (block_embeds_declaration first.text)
  have ends : (declarationMachine limit).onWord
      (.inBody first.text ⟨[], body.reverse, .statement⟩) last =
        .shift (.closing first.text (.block body)) := by
    simp [declarationMachine, DeclarationState.read, BlockState.step_end_outermost, isEnd,
      BlockState.block]
  refine .cons (.named first.text) ?_ (.cons (.inBody first.text .start) ?_ ?_)
  · simp [declarationMachine, DeclarationState.read, named.1, named.2]
  · simp [declarationMachine, DeclarationState.read, isIs]
  · exact (inner.append (.cons _ ends .done)).congr (by simp) (by simp)

/-! ## Programs -/

/-- The word that completes a declaration of a declared name is taken, and refused at its place. -/
theorem ProgramState.read_repeated (limit : Option Nat) {name : String}
    {declared : List (String × Statement)} (place : Option Span) {d : String × Statement}
    {last : Token} (same : last.text = d.1) (old : d.1 ∈ declared.map (·.1)) :
    (programMachine limit).onWord (.inDeclaration name declared place (.closing d.1 d.2)) last =
      .halt true (.error ⟨.duplicateInstruction d.1, place⟩) := by
  simp [programMachine, read, DeclarationState.read, same, isDeclared_iff.mpr old]

theorem closing_reading (limit : Option Nat) {name : String}
    {declared : List (String × Statement)} {place : Option Span} (d : String × Statement)
    {last : Token} (same : last.text = d.1) :
    (programMachine limit).Reading (.inDeclaration name declared place (.closing d.1 d.2)) [last]
      (.declaring name (d :: declared)) True (d.1 ∉ declared.map (·.1)) := by
  by_cases old : d.1 ∈ declared.map (·.1)
  · have refused : (programMachine limit).moves
        (.inDeclaration name declared place (.closing d.1 d.2)) [last] =
          .halt true (.error ⟨.duplicateInstruction d.1, place⟩) := by
      simp only [Machine.moves, ProgramState.read_repeated limit place same old]
    exact .repeated (fun absent => absent old) refused rfl
  · have isNew := ProgramState.isDeclared_eq_false.mpr old
    refine .through trivial old ?_
    simp [Machine.moves, programMachine, ProgramState.read, DeclarationState.read, same, isNew]

/-- A declaration up to its closing name, which stands apart. -/
theorem opened_reading (limit : Option Nat) (name : String) (declared : List (String × Statement))
    {d : String × Statement} {ts : List Token} (fit : DeclarationAt none d)
    (words : ts.map (·.text) = declarationWords d) :
    ∃ opening inside last, ts = opening :: inside ++ [last] ∧ last.text = d.1 ∧
      (programMachine limit).Reading (.declaring name declared) (opening :: inside)
        (.inDeclaration name declared opening.span (.closing d.1 d.2))
        (Allows limit d.2.depth) True := by
  obtain ⟨instruction, _⟩ := d
  obtain ⟨named, body, rfl, shaped, -⟩ := fit
  have split : declarationWords (instruction, .block body) =
      Keyword.instruction.text ::
        (([instruction, Keyword.is.text] ++ wordsAll body ++ [Keyword.end.text]) ++
          [instruction]) := by
    simp [declarationWords]
  rw [split] at words
  obtain ⟨opening, rest, rfl, isInstruction, words⟩ := List.map_eq_cons_iff.mp words
  obtain ⟨inside, last, rfl, inside_words, words⟩ := List.map_eq_append_iff.mp words
  obtain ⟨last, rfl, same⟩ := List.map_eq_singleton_iff.mp words
  have inner := (declaration_reading limit named shaped inside_words).lift
    (declaration_embeds_program name declared opening.span)
  refine ⟨opening, inside, last, rfl, same, (Machine.Reading.cons _ ?_ inner).congr (by simp) .rfl⟩
  simp [programMachine, ProgramState.read, isInstruction]

theorem declaring_reading (limit : Option Nat) (name : String)
    (declared : List (String × Statement)) {d : String × Statement} {ts : List Token}
    (fit : DeclarationAt none d) (words : ts.map (·.text) = declarationWords d) :
    (programMachine limit).Reading (.declaring name declared) ts (.declaring name (d :: declared))
      (Allows limit d.2.depth) (d.1 ∉ declared.map (·.1)) := by
  obtain ⟨opening, inside, last, rfl, same, inner⟩ := opened_reading limit name declared fit words
  exact (inner.append (closing_reading limit d same)).congr (by simp) (by simp)

theorem declarations_reading (limit : Option Nat) (name : String)
    (declared : List (String × Statement)) {declarations : List (String × Statement)}
    {ts : List Token} (fit : ∀ d ∈ declarations, DeclarationAt none d)
    (words : ts.map (·.text) = declarations.flatMap declarationWords) :
    (programMachine limit).Reading (.declaring name declared) ts
      (.declaring name (declarations.reverse ++ declared))
      (∀ d ∈ declarations, Allows limit d.2.depth)
      ((declarations.map (·.1)).Nodup ∧ ∀ d ∈ declarations, d.1 ∉ declared.map (·.1)) := by
  induction declarations generalizing declared ts with
  | nil =>
    cases List.map_eq_nil_iff.mp words
    exact Machine.Reading.done.congr (by simp) (by simp)
  | cons d rest ih =>
    obtain ⟨first, after⟩ := List.forall_mem_cons.mp fit
    rw [List.flatMap_cons] at words
    obtain ⟨ts, us, rfl, words, wordsAfter⟩ := List.map_eq_append_iff.mp words
    have here := declaring_reading limit name declared first words
    have whole := here.append (ih _ after wordsAfter)
    rw [List.reverse_cons, List.append_assoc, List.singleton_append]
    refine whole.congr (by rw [List.forall_mem_cons]) ?_
    simp only [List.map_cons, List.nodup_cons, List.forall_mem_cons]
    constructor
    · rintro ⟨new, distinct, others⟩
      refine ⟨⟨?_, distinct⟩, new, fun e mem old => others e mem (List.mem_cons_of_mem _ old)⟩
      intro again
      obtain ⟨e, mem, same⟩ := List.mem_map.mp again
      exact others e mem (by simp [same])
    · rintro ⟨⟨single, distinct⟩, new, others⟩
      refine ⟨new, distinct, fun e mem old => ?_⟩
      rcases List.mem_cons.mp old with same | old
      · exact single (List.mem_map.mpr ⟨e, mem, same⟩)
      · exact others e mem old

theorem head_reading (limit : Option Nat) {name : String}
    {declarations : List (String × Statement)} {ts : List Token}
    (named : isIdentifier name = true) (fit : ∀ d ∈ declarations, DeclarationAt none d)
    (words : ts.map (·.text) = headWords name declarations) :
    (programMachine limit).Reading .start ts (.declaring name declarations.reverse)
      (∀ d ∈ declarations, Allows limit d.2.depth) (declarations.map (·.1)).Nodup := by
  simp only [headWords, List.cons_append, List.nil_append] at words
  obtain ⟨t₁, rest, rfl, isProgram, words⟩ := List.map_eq_cons_iff.mp words
  obtain ⟨t₂, rest, rfl, isName, words⟩ := List.map_eq_cons_iff.mp words
  obtain ⟨t₃, rest, rfl, isIs, words⟩ := List.map_eq_cons_iff.mp words
  have declare := declarations_reading limit name [] fit words
  rw [List.append_nil] at declare
  refine .cons .naming ?_ (.cons (.named name) ?_ (.cons (.declaring name []) ?_
    (declare.congr .rfl (by simp))))
  · simp [programMachine, ProgramState.read, isProgram]
  · simp [programMachine, ProgramState.read, isName, named]
  · simp [programMachine, ProgramState.read, isIs]

theorem program_reading (limit : Option Nat) {name : String}
    {declarations : List (String × Statement)} {body : Statement} {ts : List Token}
    (named : isIdentifier name = true) (fit : ∀ d ∈ declarations, DeclarationAt none d)
    (bodyFits : BlockAt none 0 body) (words : ts.map (·.text) = programWords name declarations body) :
    (programMachine limit).Reading .start ts (.complete name declarations.reverse body)
      ((∀ d ∈ declarations, Allows limit d.2.depth) ∧ Allows limit body.depth)
      (declarations.map (·.1)).Nodup := by
  obtain ⟨body, rfl, shaped, -⟩ := bodyFits
  have split : programWords name declarations (.block body) =
      headWords name declarations ++
        Keyword.begin.text :: (wordsAll body ++ [Keyword.end.text, name]) := by
    simp [programWords]
  rw [split] at words
  obtain ⟨hs, rest, rfl, inHead, words⟩ := List.map_eq_append_iff.mp words
  obtain ⟨t₁, rest, rfl, isBegin, words⟩ := List.map_eq_cons_iff.mp words
  obtain ⟨bs, rest, rfl, inBody, words⟩ := List.map_eq_append_iff.mp words
  obtain ⟨t₂, rest, rfl, isEnd, words⟩ := List.map_eq_cons_iff.mp words
  obtain ⟨t₃, rfl, same⟩ := List.map_eq_singleton_iff.mp words
  have inner := (block_reading limit shaped inBody).lift
    (block_embeds_program name declarations.reverse)
  have tail : (programMachine limit).Reading
      (.inBody name declarations.reverse ⟨[], body.reverse, .statement⟩) [t₂, t₃]
      (.complete name declarations.reverse (.block body)) True True := by
    refine .cons (.closing name declarations.reverse (.block body)) ?_ (.cons _ ?_ .done)
    · simp [programMachine, ProgramState.read, isEnd, BlockState.step_end_outermost,
        BlockState.block]
    · simp [programMachine, ProgramState.read, same]
  have main : (programMachine limit).Reading (.declaring name declarations.reverse)
      (t₁ :: (bs ++ [t₂, t₃])) (.complete name declarations.reverse (.block body))
      (Allows limit (depthAll body)) True := by
    refine .cons (.inBody name declarations.reverse .start) ?_
      ((inner.append tail).congr (by simp) (by simp))
    simp [programMachine, ProgramState.read, isBegin]
  exact ((head_reading limit named fit inHead).append main).congr .rfl (by simp)

end RobotLang.Parser
