import RobotLang.Proofs.Shape
import RobotLang.Token.Queue

/-!
The words of statements. The classes of words exclude each other, a statement of the right shape is
written in keywords, condition words and identifiers (`not_mem_wordsAll`), and so the word for the
end of the input stands nowhere in it (`endOfInput_not_mem_wordsAll`).
-/

namespace RobotLang

/-! ## Classes of words -/

theorem Keyword.text_injective {k l : Keyword} (h : k.text = l.text) : k = l := by
  revert h
  cases k <;> cases l <;> decide

@[simp] theorem Keyword.text_inj {k l : Keyword} : k.text = l.text ↔ k = l :=
  ⟨Keyword.text_injective, congrArg _⟩

theorem isKeyword_text (k : Keyword) : isKeyword k.text = true := isKeyword_iff.mpr ⟨k, rfl⟩

theorem isIdentifier_iff {word : String} :
    isIdentifier word = true ↔
      hasNameShape word.toList = true ∧ isKeyword word = false ∧ isCondition word = false := by
  simp [isIdentifier, and_assoc]

theorem ne_keyword_of_isIdentifier {word : String} (named : isIdentifier word = true)
    (k : Keyword) : word ≠ k.text := by
  rintro rfl
  have := (isIdentifier_iff.mp named).2.1
  rw [isKeyword_text] at this
  cases this

theorem ne_endOfInput_of_isIdentifier {word : String} (named : isIdentifier word = true) :
    word ≠ endOfInput := by
  rintro rfl
  rw [not_isIdentifier_endOfInput] at named
  cases named

theorem Keyword.text_ne_endOfInput (k : Keyword) : k.text ≠ endOfInput := by
  cases k <;> decide

theorem Condition.spelling_ne_endOfInput (c : Condition) : c.spelling ≠ endOfInput := by
  cases c <;> decide

/-! ## Words of statements -/

namespace Statement

@[simp] theorem words_block (body : List Statement) : (block body).words = wordsAll body := rfl

@[simp] theorem words_call (instruction : String) : (call instruction).words = [instruction] := rfl

@[simp] theorem words_ifThen (c : Condition) (body : List Statement) :
    (node (.ifThen c) [block body]).words =
      [Keyword.if.text, c.spelling, Keyword.then.text] ++ wordsAll body ++
        [Keyword.end.text, Keyword.if.text] := by
  simp [words, wordsAll]

@[simp] theorem words_ifElse (c : Condition) (yes no : List Statement) :
    (node (.ifElse c) [block yes, block no]).words =
      [Keyword.if.text, c.spelling, Keyword.then.text] ++ wordsAll yes ++
        Keyword.else.text :: wordsAll no ++ [Keyword.end.text, Keyword.if.text] := by
  simp [words, wordsAll]

@[simp] theorem words_whileDo (c : Condition) (body : List Statement) :
    (node (.whileDo c) [block body]).words =
      [Keyword.while.text, c.spelling, Keyword.do.text] ++ wordsAll body ++
        [Keyword.end.text, Keyword.while.text] := by
  simp [words, wordsAll]

@[simp] theorem wordsAll_append (ss ts : List Statement) :
    wordsAll (ss ++ ts) = wordsAll ss ++ wordsAll ts := by
  induction ss with
  | nil => rfl
  | cons s ss ih => simp [wordsAll, ih]

/-- The keywords that statements are written in. -/
def keywords : List Keyword := [.«if», .«then», .«else», .«while», .«do», .«end»]

theorem not_mem_wordsAll {word : String} {body : List Statement} (h : Body body)
    (notName : isIdentifier word = false) (notCondition : isCondition word = false)
    (notKeyword : ∀ k ∈ keywords, word ≠ k.text) : word ∉ wordsAll body := by
  have notSpelling (c : Condition) : word ≠ c.spelling := by
    rintro rfl
    rw [isCondition_iff.mpr ⟨c, rfl⟩] at notCondition
    cases notCondition
  simp only [keywords, List.forall_mem_cons] at notKeyword
  induction h with
  | nil => simp [wordsAll]
  | @call instruction _ named _ ih =>
    have other : word ≠ instruction := by
      rintro rfl
      rw [named] at notName
      cases notName
    simp [wordsAll, ih, other]
  | ifThen _ _ inside ih | whileDo _ _ inside ih =>
    simp [wordsAll, ih, inside, notKeyword, notSpelling]
  | ifElse _ _ _ insideYes insideNo ih =>
    simp [wordsAll, ih, insideYes, insideNo, notKeyword, notSpelling]

theorem endOfInput_not_mem_wordsAll {body : List Statement} (h : Body body) :
    endOfInput ∉ wordsAll body :=
  not_mem_wordsAll h not_isIdentifier_endOfInput (by decide) fun k _ =>
    k.text_ne_endOfInput.symm

/-! ## Depth -/

@[simp] theorem depth_block (body : List Statement) : (block body).depth = depthAll body := rfl

@[simp] theorem depth_call (instruction : String) : (call instruction).depth = 0 := rfl

@[simp] theorem depth_ifThen (c : Condition) (body : List Statement) :
    (node (.ifThen c) [block body]).depth = 1 + depthAll body := by
  simp [depth, depthAll]

@[simp] theorem depth_ifElse (c : Condition) (yes no : List Statement) :
    (node (.ifElse c) [block yes, block no]).depth = 1 + max (depthAll yes) (depthAll no) := by
  simp [depth, depthAll]

@[simp] theorem depth_whileDo (c : Condition) (body : List Statement) :
    (node (.whileDo c) [block body]).depth = 1 + depthAll body := by
  simp [depth, depthAll]

theorem depthAll_le_iff {ss : List Statement} {n : Nat} :
    depthAll ss ≤ n ↔ ∀ s ∈ ss, s.depth ≤ n := by
  induction ss with
  | nil => simp [depthAll]
  | cons s ss ih => rw [depthAll, Nat.max_le, ih, List.forall_mem_cons]

end Statement

end RobotLang
