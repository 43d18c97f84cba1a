import RobotLang.Proofs.ProgramState

/-!
Whatever has been read can be completed. From every sound state there are words that lead to the end
of the block, declaration or program (`BlockState.Sound.completes`,
`DeclarationState.Sound.completes`, `ProgramState.Sound.completes`). Open statements are closed one
after the other, and everything else that is due is taken as short as possible. That may lie deeper
than a limit, so there is none here.
-/

namespace RobotLang.Parser

open Statement

variable {limit : Option Nat} {level : Nat}

/-! ## Without a limit -/

theorem ItemAt.unlimited {s : Statement} (h : ItemAt limit level s) : ItemAt none level s :=
  ⟨h.1, allows_none _⟩

theorem Part.Sound.unlimited {part : Part} (h : part.Sound limit level) : part.Sound none level := by
  cases part with
  | thenBlock => trivial
  | elseBlock yes => exact BlockAt.unlimited h
  | whileBlock => trivial

theorem FramesSound.unlimited {frames : List Frame} (h : FramesSound limit frames) :
    FramesSound none frames := by
  induction frames with
  | nil => trivial
  | cons f frames ih =>
    obtain ⟨before, part, outside⟩ := h
    exact ⟨fun s mem => (before s mem).unlimited, part.unlimited, ih outside⟩

theorem BlockState.Sound.unlimited {s : BlockState} (sound : s.Sound limit) : s.Sound none := by
  refine ⟨sound.frames.unlimited, fun item mem => (sound.done item mem).unlimited, ?_⟩
  obtain ⟨frames, done, point⟩ := s
  cases point with
  | closing construct finished => exact ⟨sound.point.1.unlimited, sound.point.2⟩
  | _ => trivial

theorem DeclarationAt.unlimited {d : String × Statement} (h : DeclarationAt limit d) :
    DeclarationAt none d := ⟨h.1, h.2.unlimited⟩

theorem DeclarationState.Sound.unlimited {s : DeclarationState} (sound : s.Sound limit) :
    s.Sound none := by
  cases s with
  | naming => trivial
  | named name => exact sound
  | inBody name b => exact ⟨sound.1, sound.2.unlimited⟩
  | closing name body => exact DeclarationAt.unlimited sound

/-! ## Blocks -/

namespace BlockState

variable {frames : List Frame} {done : List Statement}

theorem Sound.steps {s next : BlockState} {ws : List String} (sound : s.Sound limit)
    (h : s.steps limit ws = .shift next) :
    next.Sound limit ∧ next.consumed = s.consumed ++ ws := by
  induction ws generalizing s with
  | nil =>
    cases h
    exact ⟨sound, by simp⟩
  | cons w ws ih =>
    simp only [BlockState.steps] at h
    split at h
    · rename_i between shifted
      obtain ⟨soundBetween, words⟩ := sound.step shifted
      obtain ⟨soundNext, wordsNext⟩ := ih soundBetween h
      exact ⟨soundNext, by rw [wordsNext, words, List.append_assoc, List.singleton_append]⟩
    · cases h
    · cases h

/-- Some words lead to where no statement is open. -/
def Ends (s : BlockState) : Prop :=
  ∃ ws items, s.steps none ws = .shift ⟨[], items, .statement⟩

theorem ends_of_step {s next : BlockState} {word : String} (h : s.step none word = .shift next)
    (ends : next.Ends) : s.Ends := by
  obtain ⟨ws, items, read⟩ := ends
  exact ⟨word :: ws, items, by rw [steps_cons next h, read]⟩

theorem ends_of_statement : (⟨frames, done, .statement⟩ : BlockState).Ends := by
  induction frames generalizing done with
  | nil => exact ⟨[], done, rfl⟩
  | cons f frames ih =>
    -- Whatever block is open, END closes it: an IF may do without ELSE.
    obtain ⟨ws, items, read⟩ := @ih (f.part.close f.condition (.block done.reverse) :: f.before)
    refine ⟨Keyword.end.text :: f.part.construct.keyword.text :: ws, items, ?_⟩
    rw [steps_close f.condition f.part done (allows_none _), read]

theorem ends_of_opening {construct : Construct} {c : Condition} :
    (⟨frames, done, .opening construct c⟩ : BlockState).Ends := by
  have opened : ∃ f, (⟨frames, done, .opening construct c⟩ : BlockState).step none
      (KeywordPlace.afterCondition construct).keyword.text =
        .shift ⟨f :: frames, [], .statement⟩ := by simp [BlockState.step]
  obtain ⟨f, opened⟩ := opened
  exact ends_of_step opened ends_of_statement

theorem ends (s : BlockState) : s.Ends := by
  obtain ⟨frames, done, point⟩ := s
  cases point with
  | statement => exact ends_of_statement
  | condition construct =>
    have known : (⟨frames, done, .condition construct⟩ : BlockState).step none
        Condition.random.spelling = .shift ⟨frames, done, .opening construct .random⟩ := by
      simp only [BlockState.step, Condition.ofSpelling?_spelling]
    exact ends_of_step known ends_of_opening
  | opening construct c => exact ends_of_opening
  | closing construct finished =>
    have closed : (⟨frames, done, .closing construct finished⟩ : BlockState).step none
        (KeywordPlace.afterEnd construct).keyword.text =
          .shift ⟨frames, finished :: done, .statement⟩ := by
      simp only [BlockState.step, if_true]
    exact ends_of_step closed ends_of_statement

theorem Sound.completes {s : BlockState} (sound : s.Sound none) :
    ∃ ws body, Body body ∧ s.consumed ++ ws = wordsAll body := by
  obtain ⟨ws, items, read⟩ := s.ends
  obtain ⟨soundEnd, words⟩ := sound.steps read
  obtain ⟨body, same, shaped, -⟩ := soundEnd.blockAt rfl
  refine ⟨ws, body, shaped, ?_⟩
  rw [← words, consumed_of_complete rfl rfl, same, words_block]

end BlockState

/-! ## Declarations -/

/-- A name that programs and instructions may have. -/
def anyName : String := "a"

theorem isInstructionName_anyName : Program.isInstructionName anyName = true := by decide +kernel

theorem blockAt_block {body : List Statement} (shaped : Body body) : BlockAt none 0 (.block body) :=
  ⟨body, rfl, shaped, allows_none _⟩

theorem DeclarationState.Sound.completes {s : DeclarationState} (sound : s.Sound none) :
    ∃ ws d, DeclarationAt none d ∧
      Keyword.instruction.text :: s.consumed ++ ws = declarationWords d := by
  cases s with
  | naming =>
    refine ⟨[anyName, Keyword.is.text, Keyword.end.text, anyName], (anyName, .block []),
      ⟨isInstructionName_anyName, blockAt_block .nil⟩, ?_⟩
    simp [consumed, declarationWords, wordsAll]
  | named name =>
    refine ⟨[Keyword.is.text, Keyword.end.text, name], (name, .block []),
      ⟨sound, blockAt_block .nil⟩, ?_⟩
    simp [consumed, declarationWords, wordsAll]
  | inBody name b =>
    obtain ⟨ws, body, shaped, words⟩ := sound.2.completes
    refine ⟨ws ++ [Keyword.end.text, name], (name, .block body),
      ⟨sound.1, blockAt_block shaped⟩, ?_⟩
    simp [consumed, declarationWords, ← words]
  | closing name body => exact ⟨[name], (name, body), sound, by simp [consumed, declarationWords]⟩

/-! ## Programs -/

/-- What has been read of a program begins a program. Instruction names may repeat in it. -/
def ProgramState.Completes (s : ProgramState) : Prop :=
  ∃ ws name declarations body, isIdentifier name = true ∧
    (∀ d ∈ declarations, DeclarationAt none d) ∧ BlockAt none 0 body ∧
      s.consumed ++ ws = programWords name declarations body

theorem HeadSound.unlimited {name : String} {declared : List (String × Statement)}
    (head : HeadSound limit name declared) : ∀ d ∈ declared.reverse, DeclarationAt none d :=
  fun d mem => (head.fit d (List.mem_reverse.mp mem)).unlimited

theorem ProgramState.Sound.completes {s : ProgramState} (sound : s.Sound limit) : s.Completes := by
  have named := (isInstructionName_iff.mp isInstructionName_anyName).1
  have noBody := blockAt_block .nil
  cases s with
  | start =>
    refine ⟨_, anyName, [], .block [], named, by simp, noBody, List.nil_append _⟩
  | naming =>
    refine ⟨[anyName, Keyword.is.text, Keyword.begin.text, Keyword.end.text, anyName], anyName, [],
      .block [], named, by simp, noBody, ?_⟩
    simp [consumed, programWords, headWords, wordsAll]
  | named name =>
    refine ⟨[Keyword.is.text, Keyword.begin.text, Keyword.end.text, name], name, [], .block [],
      sound, by simp, noBody, ?_⟩
    simp [consumed, programWords, headWords, wordsAll]
  | declaring name declared =>
    refine ⟨[Keyword.begin.text, Keyword.end.text, name], name, declared.reverse, .block [],
      sound.named, sound.unlimited, noBody, ?_⟩
    simp [consumed, programWords, wordsAll]
  | inDeclaration name declared place d =>
    obtain ⟨head, inside⟩ := sound
    obtain ⟨ws, completed, fits, words⟩ := inside.unlimited.completes
    refine ⟨ws ++ [Keyword.begin.text, Keyword.end.text, name], name,
      (completed :: declared).reverse, .block [], head.named, ?_, noBody, ?_⟩
    · rw [List.reverse_cons]
      exact List.forall_mem_append.mpr ⟨head.unlimited, by simpa using fits⟩
    · rw [programWords, headWords_cons, ← words]
      simp [consumed, wordsAll]
  | inBody name declared b =>
    obtain ⟨head, inside⟩ := sound
    obtain ⟨ws, body, shaped, words⟩ := inside.unlimited.completes
    refine ⟨ws ++ [Keyword.end.text, name], name, declared.reverse, .block body, head.named,
      head.unlimited, blockAt_block shaped, ?_⟩
    simp [consumed, programWords, ← words]
  | closing name declared body =>
    exact ⟨[name], name, declared.reverse, body, sound.1.named, sound.1.unlimited,
      sound.2.unlimited, by simp [consumed, programWords]⟩
  | complete name declared body =>
    exact ⟨[], name, declared.reverse, body, sound.1.named, sound.1.unlimited,
      sound.2.unlimited, List.append_nil _⟩

end RobotLang.Parser
