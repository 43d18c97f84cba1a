import RobotLang.Parser.Program
import RobotLang.Proofs.BlockState

/-!
What a state inside a program has read. As in a block, the words that were read can be told from the
state, and each word that is taken adds itself to them and keeps the state sound: names are
identifiers, instruction names are not primitive and differ, and bodies are blocks within the limit
(`DeclarationState.Sound.read`, `ProgramState.Sound.read`).
-/

namespace RobotLang.Parser

open Statement

variable {limit : Option Nat} {t : Token}

/-! ## The words of programs -/

def declarationWords (d : String × Statement) : List String :=
  [Keyword.instruction.text, d.1, Keyword.is.text] ++ d.2.words ++ [Keyword.end.text, d.1]

/-- The words of a program up to what follows its declarations. -/
def headWords (name : String) (declarations : List (String × Statement)) : List String :=
  [Keyword.program.text, name, Keyword.is.text] ++ declarations.flatMap declarationWords

def programWords (name : String) (declarations : List (String × Statement)) (body : Statement) :
    List String :=
  headWords name declarations ++ [Keyword.begin.text] ++ body.words ++ [Keyword.end.text, name]

/-- A declaration with a name that an instruction may have and a body within the limit. -/
def DeclarationAt (limit : Option Nat) (d : String × Statement) : Prop :=
  Program.isInstructionName d.1 = true ∧ BlockAt limit 0 d.2

theorem isInstructionName_iff {word : String} :
    Program.isInstructionName word = true ↔ isIdentifier word = true ∧ isPrimitive word = false := by
  simp [Program.isInstructionName]

theorem endOfInput_not_mem_declarationWords {d : String × Statement} (fit : DeclarationAt limit d) :
    endOfInput ∉ declarationWords d := by
  obtain ⟨instruction, _⟩ := d
  obtain ⟨named, body, rfl, shaped, -⟩ := fit
  have name := ne_endOfInput_of_isIdentifier (isInstructionName_iff.mp named).1
  simp [declarationWords, endOfInput_not_mem_wordsAll shaped, name.symm,
    (Keyword.text_ne_endOfInput _).symm]

theorem endOfInput_not_mem_programWords {name : String} {declarations : List (String × Statement)}
    {body : Statement} (named : isIdentifier name = true)
    (fit : ∀ d ∈ declarations, DeclarationAt limit d) (inside : BlockAt limit 0 body) :
    endOfInput ∉ programWords name declarations body := by
  obtain ⟨body, rfl, shaped, -⟩ := inside
  have declared : ∀ d ∈ declarations, endOfInput ∉ declarationWords d :=
    fun d mem => endOfInput_not_mem_declarationWords (fit d mem)
  simpa [programWords, headWords, endOfInput_not_mem_wordsAll shaped,
    (ne_endOfInput_of_isIdentifier named).symm, (Keyword.text_ne_endOfInput _).symm] using declared

/-! ## Declarations -/

namespace DeclarationState

/-- The words that a state has taken behind INSTRUCTION. -/
def consumed : DeclarationState → List String
  | naming => []
  | named name => [name]
  | inBody name b => [name, Keyword.is.text] ++ b.consumed
  | closing name body => [name, Keyword.is.text] ++ body.words ++ [Keyword.end.text]

def Sound (limit : Option Nat) : DeclarationState → Prop
  | naming => True
  | named name => Program.isInstructionName name = true
  | inBody name b => Program.isInstructionName name = true ∧ b.Sound limit
  | closing name body => DeclarationAt limit (name, body)

theorem Sound.read {s next : DeclarationState} (sound : s.Sound limit)
    (h : s.read limit t = .shift next) :
    next.Sound limit ∧ next.consumed = s.consumed ++ [t.text] := by
  cases s with
  | naming =>
    simp only [DeclarationState.read] at h
    split at h
    · rename_i named
      split at h
      · cases h
      · rename_i notPrimitive
        cases h
        exact ⟨isInstructionName_iff.mpr ⟨named, by simpa using notPrimitive⟩, rfl⟩
    · cases h
  | named name =>
    simp only [DeclarationState.read] at h
    split at h
    · rename_i spelled
      cases h
      refine ⟨⟨sound, BlockState.sound_start⟩, ?_⟩
      simp [consumed, spelled, BlockState.consumed, BlockState.start, framesConsumed,
        Point.consumed, wordsAll]
    · cases h
  | inBody name b =>
    simp only [DeclarationState.read] at h
    split at h
    · rename_i inner shifted
      cases h
      obtain ⟨innerSound, words⟩ := sound.2.step shifted
      exact ⟨⟨sound.1, innerSound⟩, by simp [consumed, words]⟩
    · cases h
    · rename_i closes
      obtain ⟨outermost, complete, -⟩ := BlockState.step_close closes
      split at h
      · rename_i spelled
        cases h
        refine ⟨⟨sound.1, sound.2.blockAt outermost⟩, ?_⟩
        simp [consumed, spelled, BlockState.consumed_of_complete outermost complete]
      · cases h
  | closing name body =>
    simp only [DeclarationState.read] at h
    split at h <;> cases h

theorem Sound.read_ok {s : DeclarationState} {taken : Bool} {d : String × Statement}
    (sound : s.Sound limit) (h : s.read limit t = .halt taken (.ok d)) :
    taken = true ∧ DeclarationAt limit d ∧
      Keyword.instruction.text :: s.consumed ++ [t.text] = declarationWords d := by
  cases s with
  | naming =>
    simp only [DeclarationState.read] at h
    split at h
    · split at h <;> cases h
    · cases h
  | named name =>
    simp only [DeclarationState.read] at h
    split at h <;> cases h
  | inBody name b =>
    simp only [DeclarationState.read] at h
    split at h
    · cases h
    · cases h
    · split at h <;> cases h
  | closing name body =>
    simp only [DeclarationState.read] at h
    split at h
    · rename_i same
      cases h
      exact ⟨rfl, sound, by simp [consumed, declarationWords, same]⟩
    · cases h

theorem sound_of_moves {s : DeclarationState} {ts : List Token}
    (words : ∀ t ∈ ts, t.isEnd = false)
    (moved : (declarationMachine limit).moves .naming ts = .shift s) :
    s.Sound limit ∧ s.consumed = ts.map (·.text) := by
  refine Machine.moves_invariant (fun s ws => s.Sound limit ∧ s.consumed = ws) []
    ⟨trivial, rfl⟩ ?_ words moved
  rintro s _ t next ⟨sound, rfl⟩ _ shifted
  exact sound.read shifted

end DeclarationState

/-! ## Programs -/

/-- The name and the declarations of a program, newest first, are as they have to be. -/
structure HeadSound (limit : Option Nat) (name : String) (declared : List (String × Statement)) :
    Prop where
  named : isIdentifier name = true
  fit : ∀ d ∈ declared, DeclarationAt limit d
  distinct : (declared.map (·.1)).Nodup

theorem headWords_cons (name : String) (declared : List (String × Statement))
    (d : String × Statement) :
    headWords name (d :: declared).reverse =
      headWords name declared.reverse ++ declarationWords d := by
  simp [headWords]

namespace ProgramState

theorem isDeclared_iff {name : String} {declared : List (String × Statement)} :
    isDeclared name declared = true ↔ name ∈ declared.map (·.1) := by
  simp only [isDeclared, List.any_eq_true, beq_iff_eq, List.mem_map]

theorem isDeclared_eq_false {name : String} {declared : List (String × Statement)} :
    isDeclared name declared = false ↔ name ∉ declared.map (·.1) := by
  rw [← Bool.not_eq_true, isDeclared_iff]

/-- The words that a state has taken. -/
def consumed : ProgramState → List String
  | start => []
  | naming => [Keyword.program.text]
  | named name => [Keyword.program.text, name]
  | declaring name declared => headWords name declared.reverse
  | inDeclaration name declared _ d =>
    headWords name declared.reverse ++ Keyword.instruction.text :: d.consumed
  | inBody name declared b => headWords name declared.reverse ++ [Keyword.begin.text] ++ b.consumed
  | closing name declared body =>
    headWords name declared.reverse ++ [Keyword.begin.text] ++ body.words ++ [Keyword.end.text]
  | complete name declared body => programWords name declared.reverse body

def Sound (limit : Option Nat) : ProgramState → Prop
  | start => True
  | naming => True
  | named name => isIdentifier name = true
  | declaring name declared => HeadSound limit name declared
  | inDeclaration name declared _ d => HeadSound limit name declared ∧ d.Sound limit
  | inBody name declared b => HeadSound limit name declared ∧ b.Sound limit
  | closing name declared body => HeadSound limit name declared ∧ BlockAt limit 0 body
  | complete name declared body => HeadSound limit name declared ∧ BlockAt limit 0 body

theorem Sound.read {s next : ProgramState} (sound : s.Sound limit)
    (h : s.read limit t = .shift next) :
    next.Sound limit ∧ next.consumed = s.consumed ++ [t.text] := by
  cases s with
  | start =>
    simp only [ProgramState.read] at h
    split at h
    · rename_i spelled
      cases h
      exact ⟨trivial, by simp [consumed, spelled]⟩
    · cases h
  | naming =>
    simp only [ProgramState.read] at h
    split at h
    · rename_i named
      cases h
      exact ⟨named, by simp [consumed]⟩
    · cases h
  | named name =>
    simp only [ProgramState.read] at h
    split at h
    · rename_i spelled
      cases h
      exact ⟨⟨sound, by simp, by simp⟩, by simp [consumed, headWords, spelled]⟩
    · cases h
  | declaring name declared =>
    simp only [ProgramState.read] at h
    split at h
    · rename_i spelled
      cases h
      exact ⟨⟨sound, trivial⟩, by simp [consumed, DeclarationState.consumed, spelled]⟩
    split at h
    · rename_i spelled
      cases h
      refine ⟨⟨sound, BlockState.sound_start⟩, ?_⟩
      simp [consumed, spelled, BlockState.consumed, BlockState.start, framesConsumed,
        Point.consumed, wordsAll]
    · cases h
  | inDeclaration name declared place d =>
    obtain ⟨head, inside⟩ := sound
    simp only [ProgramState.read] at h
    split at h
    · rename_i inner shifted
      cases h
      obtain ⟨innerSound, words⟩ := inside.read shifted
      exact ⟨⟨head, innerSound⟩, by simp [consumed, words]⟩
    · cases h
    · rename_i taken instruction body accepted
      obtain ⟨rfl, fits, words⟩ := inside.read_ok accepted
      split at h
      · cases h
      · rename_i isNew
        cases h
        rw [Bool.not_eq_true, isDeclared_eq_false] at isNew
        -- With its closing name the declaration is complete, and its words are those of the tree.
        constructor
        · exact ⟨head.named, List.forall_mem_cons.mpr ⟨fits, head.fit⟩,
            List.nodup_cons.mpr ⟨isNew, head.distinct⟩⟩
        · rw [consumed, headWords_cons, ← words]
          simp [consumed]
  | inBody name declared b =>
    obtain ⟨head, inside⟩ := sound
    simp only [ProgramState.read] at h
    split at h
    · rename_i inner shifted
      cases h
      obtain ⟨innerSound, words⟩ := inside.step shifted
      exact ⟨⟨head, innerSound⟩, by simp [consumed, words]⟩
    · cases h
    · rename_i closes
      obtain ⟨outermost, complete, -⟩ := BlockState.step_close closes
      split at h
      · rename_i spelled
        cases h
        refine ⟨⟨head, inside.blockAt outermost⟩, ?_⟩
        simp [consumed, spelled, BlockState.consumed_of_complete outermost complete]
      · cases h
  | closing name declared body =>
    simp only [ProgramState.read] at h
    split at h
    · rename_i same
      cases h
      exact ⟨sound, by simp [consumed, programWords, same]⟩
    · cases h
  | complete name declared body => cases h

theorem sound_of_moves {s : ProgramState} {ts : List Token} (words : ∀ t ∈ ts, t.isEnd = false)
    (moved : (programMachine limit).moves .start ts = .shift s) :
    s.Sound limit ∧ s.consumed = ts.map (·.text) := by
  refine Machine.moves_invariant (fun s ws => s.Sound limit ∧ s.consumed = ws) []
    ⟨trivial, rfl⟩ ?_ words moved
  rintro s _ t next ⟨sound, rfl⟩ _ h
  exact sound.read h

theorem read_ne_ok {s : ProgramState} {taken : Bool} {p : Program} :
    s.read limit t ≠ .halt taken (.ok p) := by
  intro h
  cases s with
  | start | naming | named | closing =>
    simp only [ProgramState.read] at h
    split at h <;> cases h
  | declaring =>
    simp only [ProgramState.read] at h
    split at h
    · cases h
    · split at h <;> cases h
  | inDeclaration =>
    simp only [ProgramState.read] at h
    split at h
    · cases h
    · cases h
    · split at h <;> cases h
  | inBody =>
    simp only [ProgramState.read] at h
    split at h
    · cases h
    · cases h
    · split at h <;> cases h
  | complete => cases h

theorem finish_ok_iff {s : ProgramState} {p : Program} :
    s.finish limit = .ok p ↔ ∃ declared, s = .complete p.name declared p.body ∧
      p.context = .ofEntries declared := by
  cases s with
  | complete name declared body =>
    simp only [finish, Except.ok.injEq, complete.injEq]
    constructor
    · rintro rfl
      exact ⟨declared, ⟨rfl, rfl, rfl⟩, rfl⟩
    · rintro ⟨_, ⟨rfl, rfl, rfl⟩, context⟩
      rw [← context]
  | _ => simp [finish]

theorem onEnd_ok_iff {s : ProgramState} {place : Option Span} {p : Program} :
    (programMachine limit).onEnd s place = .ok p ↔ s.finish limit = .ok p := by
  simp only [programMachine]
  cases s.finish limit with
  | ok finished =>
    constructor
    · intro h
      cases h
      rfl
    · intro h
      cases h
      rfl
  | error fault =>
    constructor
    · intro h
      cases h
    · intro h
      cases h

end ProgramState

end RobotLang.Parser
