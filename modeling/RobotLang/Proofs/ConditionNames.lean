import Mathlib.Data.List.Forall2
import RobotLang.Proofs.DescentBlock
import RobotLang.Proofs.ParsedTrees

/-!
Which words name conditions. Outside programs a condition may be named in any case and with hyphens
or underscores, and since names are compared in upper case, also with the two characters beyond
ASCII whose upper case is an ASCII letter (`StandsFor`). Characters whose upper case is several
letters stand in no such word, because no name has these letters side by side (`name_apart`). Inside
programs only the one spelling of a condition is read, which names it as well.

Main statement: `condition_names`.
-/

namespace RobotLang

/-! ## Upper case -/

namespace Text

/-- What may stand in a word for a character of a name. -/
def StandsFor (c n : Char) : Prop :=
  n = '_' ∧ (c = '-' ∨ c = '_') ∨ n.isUpper = true ∧ (c = n ∨ c = n.toLower) ∨
    n = 'I' ∧ c = 'ı' ∨ n = 'S' ∧ c = 'ſ'

/-- The first two letters of the upper case of the characters that have several. -/
def expansions : List (Char × Char) := [('S', 'S'), ('F', 'F'), ('F', 'I'), ('F', 'L'), ('S', 'T')]

theorem upperCase_cases (c : Char) :
    (∃ n, upperCase c = [n]) ∨
      ∃ a b rest, upperCase c = a :: b :: rest ∧ (a, b) ∈ expansions := by
  unfold upperCase
  split
  · exact .inl ⟨_, rfl⟩
  · split <;> first | exact .inl ⟨_, rfl⟩ | exact .inr ⟨_, _, _, rfl, by decide⟩

/-- What holds of each of the ASCII characters. -/
theorem of_ascii {P : Char → Prop} (all : ∀ k < 128, P (Char.ofNat k)) {c : Char}
    (ascii : c.toNat < 128) : P c := by
  have here := all c.toNat ascii
  rwa [Char.ofNat_toNat] at here

theorem ascii_of_isLower {c : Char} (lower : c.isLower = true) : c.toNat < 128 := by
  have bounds : (decide (c.val ≥ 'a'.val) && decide (c.val ≤ 'z'.val)) = true := lower
  rw [Bool.and_eq_true, decide_eq_true_eq, decide_eq_true_eq] at bounds
  exact Nat.lt_of_le_of_lt (UInt32.le_iff_toNat_le.mp bounds.2) (by decide)

theorem ascii_of_isUpper {n : Char} (upper : n.isUpper = true) : n.toNat < 128 := by
  have bounds : n.val ≥ 'A'.val ∧ n.val ≤ 'Z'.val := of_decide_eq_true upper
  exact Nat.lt_of_le_of_lt (UInt32.le_iff_toNat_le.mp bounds.2) (by decide)

theorem isUpper_toUpper {c : Char} (lower : c.isLower = true) :
    c.toUpper.isUpper = true ∧ c.toUpper.toLower = c :=
  of_ascii (P := fun c => c.isLower = true → c.toUpper.isUpper = true ∧ c.toUpper.toLower = c)
    (by decide +kernel) (ascii_of_isLower lower) lower

theorem upperCase_underscored {n : Char} (upper : n.isUpper = true) :
    upperCase (Condition.underscored n) = [n] ∧
      upperCase (Condition.underscored n.toLower) = [n] :=
  of_ascii (P := fun n => n.isUpper = true → upperCase (Condition.underscored n) = [n] ∧
      upperCase (Condition.underscored n.toLower) = [n])
    (by decide +kernel) (ascii_of_isUpper upper) upper

/-- The characters that are read as a letter or an underscore. -/
theorem upperCase_eq_singleton_iff {c n : Char} (letter : n = '_' ∨ n.isUpper = true) :
    upperCase (Condition.underscored c) = [n] ↔ StandsFor c n := by
  constructor
  · intro h
    by_cases hyphen : c = '-'
    · subst hyphen
      cases h
      exact .inl ⟨rfl, .inl rfl⟩
    · rw [Condition.underscored, if_neg hyphen] at h
      unfold upperCase at h
      split at h
      · rename_i lower
        cases h
        obtain ⟨upper, same⟩ := isUpper_toUpper lower
        exact .inr (.inl ⟨upper, .inr same.symm⟩)
      · split at h <;> cases h
        · exact .inr (.inr (.inl ⟨rfl, rfl⟩))
        · exact .inr (.inr (.inr ⟨rfl, rfl⟩))
        · rcases letter with rfl | upper
          · exact .inl ⟨rfl, .inr rfl⟩
          · exact .inr (.inl ⟨upper, .inl rfl⟩)
  · rintro (⟨rfl, rfl | rfl⟩ | ⟨upper, rfl | rfl⟩ | ⟨rfl, rfl⟩ | ⟨rfl, rfl⟩)
    · rfl
    · rfl
    · exact (upperCase_underscored upper).1
    · exact (upperCase_underscored upper).2
    · rfl
    · rfl

theorem flatMap_upperCase_iff {word name : List Char}
    (letters : ∀ n ∈ name, n = '_' ∨ n.isUpper = true)
    (apart : name.IsChain fun a b => (a, b) ∉ expansions) :
    (word.flatMap fun c => upperCase (Condition.underscored c)) = name ↔
      List.Forall₂ StandsFor word name := by
  induction word generalizing name with
  | nil => rw [List.flatMap_nil, List.forall₂_nil_left_iff, eq_comm]
  | cons c word ih =>
    rw [List.flatMap_cons, List.forall₂_cons_left_iff]
    constructor
    · rintro rfl
      rcases upperCase_cases (Condition.underscored c) with
        ⟨n, single⟩ | ⟨a, b, rest, several, expands⟩
      · rw [single] at letters apart ⊢
        obtain ⟨letter, letters⟩ := List.forall_mem_cons.mp letters
        exact ⟨n, _, (upperCase_eq_singleton_iff letter).mp single,
          (ih letters apart.of_cons).mp rfl, rfl⟩
      · rw [several] at apart
        exact absurd expands (List.isChain_cons_cons.mp apart).1
    · rintro ⟨n, name, stands, behind, rfl⟩
      obtain ⟨letter, letters⟩ := List.forall_mem_cons.mp letters
      rw [(upperCase_eq_singleton_iff letter).mpr stands, (ih letters apart.of_cons).mpr behind]
      rfl

/-- An upper-casing of all characters, of which no more is known than this: it gives what `upperCase`
gives, or else the character lies beyond ASCII, and so does a part of its upper case. -/
def UpperCasing (upper : Char → List Char) : Prop :=
  ∀ c, upper c = upperCase c ∨
    upperCase c = [c] ∧ 128 ≤ c.toNat ∧ ∃ d ∈ upper c, 128 ≤ d.toNat

theorem UpperCasing.flatMap_iff {upper : Char → List Char} (full : UpperCasing upper)
    {word name : List Char} (ascii : ∀ n ∈ name, n.toNat < 128) (f : Char → Char) :
    (word.flatMap fun c => upper (f c)) = name ↔
      (word.flatMap fun c => upperCase (f c)) = name := by
  by_cases same : ∀ c ∈ word, upper (f c) = upperCase (f c)
  · have whole : (word.flatMap fun c => upper (f c)) = word.flatMap fun c => upperCase (f c) := by
      simp only [List.flatMap, List.map_congr_left same]
    rw [whole]
  · -- Some character makes both of them hold one beyond ASCII, so neither is the name.
    simp only [not_forall] at same
    obtain ⟨c, mem, differs⟩ := same
    obtain ⟨alone, beyond, d, inside, beyond'⟩ := (full (f c)).resolve_left differs
    constructor
    · rintro rfl
      exact absurd (ascii d (List.mem_flatMap.mpr ⟨c, mem, inside⟩)) (Nat.not_lt.mpr beyond')
    · rintro rfl
      have here : f c ∈ upperCase (f c) := by simp [alone]
      exact absurd (ascii _ (List.mem_flatMap.mpr ⟨c, mem, here⟩)) (Nat.not_lt.mpr beyond)

end Text

/-! ## Names -/

namespace Condition

theorem name_letters (c : Condition) : ∀ n ∈ c.name.toList, n = '_' ∨ n.isUpper := by
  have all : c.name.toList.all fun n => n == '_' || n.isUpper := by cases c <;> decide +kernel
  simpa using all

theorem name_apart (c : Condition) :
    c.name.toList.IsChain fun a b => (a, b) ∉ Text.expansions := by
  cases c <;> decide +kernel

theorem name_ascii (c : Condition) : ∀ n ∈ c.name.toList, n.toNat < 128 := by
  intro n mem
  rcases c.name_letters n mem with rfl | upper
  · decide
  · exact Text.ascii_of_isUpper upper

theorem name_injective {c d : Condition} (h : c.name = d.name) : c = d := by
  revert h
  cases c <;> cases d <;> decide

/-- Resolve a word with an upper-casing of characters. -/
def resolveWith? (upper : Char → List Char) (word : String) : Option Condition :=
  all.find? fun c => c.name.toList == word.toList.flatMap fun c => upper (underscored c)

theorem resolveWith?_eq {upper : Char → List Char} (full : Text.UpperCasing upper)
    (word : String) : resolveWith? upper word = resolve? word := by
  have same (c : Condition) :
      (c.name.toList == word.toList.flatMap fun c => upper (underscored c)) =
        (c.name.toList == word.toList.flatMap fun c => Text.upperCase (underscored c)) := by
    rw [Bool.eq_iff_iff, beq_iff_eq, beq_iff_eq, eq_comm, full.flatMap_iff c.name_ascii, eq_comm]
  exact congrArg all.find? (funext same)

theorem resolve?_eq_some_iff {word : String} {c : Condition} :
    resolve? word = some c ↔ List.Forall₂ Text.StandsFor word.toList c.name.toList := by
  rw [← Text.flatMap_upperCase_iff c.name_letters c.name_apart, resolve?]
  constructor
  · intro h
    exact (beq_iff_eq.mp (List.find?_some h :)).symm
  · intro spelled
    simp only [spelled]
    cases h : all.find? fun d => d.name.toList == c.name.toList with
    | none => exact absurd (List.find?_eq_none.mp h c (mem_all c)) (by simp)
    | some d =>
      have same := beq_iff_eq.mp (List.find?_some h :)
      rw [name_injective (String.toList_inj.mp same)]

theorem parse_eq_ok_iff {word : String} {c : Condition} :
    parse word = .ok c ↔ resolve? word = some c := by
  unfold parse
  split <;> simp [*]

theorem parse_eq_error {word : String} (unknown : ∀ c, parse word ≠ .ok c) :
    parse word = .error ⟨.notACondition word, none⟩ := by
  unfold parse at unknown ⊢
  split
  · simp_all
  · rfl

end Condition

/-! ## Conditions inside programs -/

namespace Statement

mutual

/-- The conditions that are tested in a statement, in the order of the text. -/
def conditions : Statement → List Condition
  | node label children => label.condition?.toList ++ conditionsAll children

def conditionsAll : List Statement → List Condition
  | [] => []
  | s :: ss => conditions s ++ conditionsAll ss

end

@[simp] theorem conditions_block (body : List Statement) :
    (block body).conditions = conditionsAll body := by
  simp [block, conditions, Label.condition?]

end Statement

/-- The words that stand where a condition is due: behind each IF and WHILE, but for those behind an
END. The flag says whether there is an END in front of the words. -/
def conditionWords : Bool → List String → List String
  | _, [] => []
  | closing, word :: rest =>
    if closing = false ∧ (word = Keyword.if.text ∨ word = Keyword.while.text) then
      rest.take 1 ++ conditionWords false rest
    else conditionWords (word == Keyword.end.text) rest

section

variable {closing : Bool} {word : String} {rest : List String} {k : Keyword}

theorem conditionWords_other (notIf : word ≠ Keyword.if.text) (notWhile : word ≠ Keyword.while.text)
    (notEnd : word ≠ Keyword.end.text) :
    conditionWords closing (word :: rest) = conditionWords false rest := by
  rw [conditionWords, if_neg (by simp [notIf, notWhile]), beq_eq_false_iff_ne.mpr notEnd]

theorem conditionWords_name (named : isIdentifier word = true) :
    conditionWords closing (word :: rest) = conditionWords false rest :=
  conditionWords_other (ne_keyword_of_isIdentifier named _) (ne_keyword_of_isIdentifier named _)
    (ne_keyword_of_isIdentifier named _)

theorem conditionWords_keyword (other : k ∉ [Keyword.if, Keyword.while, Keyword.end]) :
    conditionWords closing (k.text :: rest) = conditionWords false rest := by
  simp only [List.mem_cons, List.not_mem_nil, or_false, not_or] at other
  exact conditionWords_other (by simpa using other.1) (by simpa using other.2.1)
    (by simpa using other.2.2)

theorem conditionWords_spelling (c : Condition) :
    conditionWords closing (c.spelling :: rest) = conditionWords false rest := by
  refine conditionWords_other ?_ ?_ ?_ <;> cases c <;> decide

/-- The words of an IF or a WHILE up to its block. -/
theorem conditionWords_opening {behind : Keyword} (opens : k = .if ∨ k = .while)
    (other : behind ∉ [Keyword.if, Keyword.while, Keyword.end]) (c : Condition)
    (rest : List String) :
    conditionWords false (k.text :: c.spelling :: behind.text :: rest) =
      c.spelling :: conditionWords false rest := by
  rw [conditionWords, if_pos ⟨rfl, by simpa using opens⟩, conditionWords_spelling,
    conditionWords_keyword other]
  rfl

/-- The words behind its last block. -/
theorem conditionWords_closing (opens : k = .if ∨ k = .while) (rest : List String) :
    conditionWords false (Keyword.end.text :: k.text :: rest) = conditionWords false rest := by
  rw [conditionWords, if_neg (by simp), conditionWords, if_neg (by simp),
    beq_eq_false_iff_ne.mpr]
  rcases opens with rfl | rfl <;> decide

end

open Statement

theorem conditionWords_wordsAll {body : List Statement} (shaped : Body body) (rest : List String) :
    conditionWords false (wordsAll body ++ rest) =
      (conditionsAll body).map Condition.spelling ++ conditionWords false rest := by
  induction shaped generalizing rest with
  | nil => rfl
  | call named _ ih =>
    rw [wordsAll, words_call, List.singleton_append, List.cons_append, conditionWords_name named, ih]
    rfl
  | ifThen _ _ inside ih =>
    simp only [wordsAll, words_ifThen, List.append_assoc, List.cons_append, List.nil_append]
    rw [conditionWords_opening (.inl rfl) (by decide), inside, conditionWords_closing (.inl rfl), ih]
    simp [conditionsAll, conditions, Label.condition?]
  | ifElse _ _ _ insideYes insideNo ih =>
    simp only [wordsAll, words_ifElse, List.append_assoc, List.cons_append, List.nil_append]
    rw [conditionWords_opening (.inl rfl) (by decide), insideYes,
      conditionWords_keyword (by decide), insideNo, conditionWords_closing (.inl rfl), ih]
    simp [conditionsAll, conditions, Label.condition?]
  | whileDo _ _ inside ih =>
    simp only [wordsAll, words_whileDo, List.append_assoc, List.cons_append, List.nil_append]
    rw [conditionWords_opening (.inr rfl) (by decide), inside, conditionWords_closing (.inr rfl), ih]
    simp [conditionsAll, conditions, Label.condition?]

namespace Parser

variable {limit : Option Nat} {level : Nat} {q left : TokenQueue} {s : Statement} {p : Program}

theorem conditionWords_block (fits : BlockAt limit level s) (rest : List String) :
    conditionWords false (s.words ++ rest) =
      s.conditions.map Condition.spelling ++ conditionWords false rest := by
  obtain ⟨body, rfl, shaped, -⟩ := fits
  simpa using conditionWords_wordsAll shaped rest

theorem conditionWords_item (fits : ItemAt limit level s) :
    conditionWords false s.words = s.conditions.map Condition.spelling := by
  have shaped := body_of_items [s] (by simpa using fits.1)
  simpa [wordsAll, conditionsAll, conditionWords] using conditionWords_wordsAll shaped []

theorem conditionWords_declarations {declarations : List (String × Statement)}
    (fit : ∀ d ∈ declarations, DeclarationAt limit d) (rest : List String) :
    conditionWords false (declarations.flatMap declarationWords ++ rest) =
      (declarations.flatMap fun d => d.2.conditions).map Condition.spelling ++
        conditionWords false rest := by
  induction declarations with
  | nil => rfl
  | cons d declarations ih =>
    obtain ⟨⟨named, fits⟩, after⟩ := List.forall_mem_cons.mp fit
    have named := (isInstructionName_iff.mp named).1
    simp only [List.flatMap_cons, declarationWords, List.append_assoc, List.cons_append,
      List.nil_append, List.map_append]
    rw [conditionWords_keyword (by decide), conditionWords_name named,
      conditionWords_keyword (by decide), conditionWords_block fits, conditionWords,
      if_neg (by simp), conditionWords_name named, ih after]

theorem conditionWords_program {declarations : List (String × Statement)}
    (written : WrittenWith limit p declarations) :
    conditionWords false (programWords p.name declarations p.body) =
      ((declarations.flatMap fun d => d.2.conditions) ++ p.body.conditions).map
        Condition.spelling := by
  simp only [programWords, headWords, List.append_assoc, List.cons_append, List.nil_append,
    List.map_append]
  rw [conditionWords_keyword (by decide), conditionWords_name written.named,
    conditionWords_keyword (by decide), conditionWords_declarations written.fit,
    conditionWords_keyword (by decide), conditionWords_block written.body, conditionWords,
    if_neg (by simp), conditionWords_name written.named, conditionWords, List.append_nil]

/-- The words that have been read where conditions were due are the spellings of the conditions. -/
def ReadsConditions (q left : TokenQueue) (conditions : List Condition) : Prop :=
  ∃ taken, q.toList = taken ++ left.toList ∧
    conditionWords false (taken.map (·.text)) = conditions.map Condition.spelling

theorem readsConditions_statement (accepted : (statement limit q).result = .ok s) :
    ReadsConditions q (statement limit q).rest s.conditions := by
  obtain ⟨fits, ts, split, texts⟩ := words_of_statement accepted
  exact ⟨ts, split, by rw [texts, conditionWords_item fits]⟩

theorem readsConditions_block (accepted : (block limit q).result = .ok s) :
    ReadsConditions q (block limit q).rest s.conditions := by
  obtain ⟨fits, ts, split, texts⟩ := words_of_block accepted
  refine ⟨ts, split, ?_⟩
  simpa [texts, conditionWords] using conditionWords_block fits []

/-- The declarations are those of the program, in the order of the text. -/
theorem readsConditions_program (accepted : (program limit q).result = .ok p) :
    ∃ declarations, p.context.entries.Perm declarations ∧
      ReadsConditions q (program limit q).rest
        ((declarations.flatMap fun d => d.2.conditions) ++ p.body.conditions) := by
  obtain ⟨declarations, ts, written, split, texts, -⟩ := words_of_program accepted
  exact ⟨declarations, written.declares, ts, split, by rw [texts, conditionWords_program written]⟩

/-- The procedure that reads a condition takes its spelling and nothing else. -/
theorem Descent.condition_eq_value_iff {τ : Type} {construct : Construct} {target : τ}
    {c : Condition} {after : Store τ} :
    condition construct ⟨q, target⟩ = .value c after ↔
      q.front.text = c.spelling ∧ after = ⟨q.dequeue.2, target⟩ := by
  rw [condition, Procedure.front_bind, Procedure.ensure_bind]
  cases known : isCondition q.front.text with
  | true =>
    obtain ⟨d, spelled⟩ := isCondition_iff.mp known
    rw [if_pos rfl, Procedure.dequeue_bind, TokenQueue.dequeue_fst, spelled,
      Condition.parse_spelling]
    constructor
    · intro h
      cases h
      exact ⟨rfl, rfl⟩
    · rintro ⟨same, rfl⟩
      rw [Condition.spelling_injective same]
      rfl
  | false =>
    refine ⟨fun h => (by cases h), fun ⟨spelled, _⟩ => ?_⟩
    rw [isCondition_iff.mpr ⟨c, spelled⟩] at known
    cases known

end Parser

/-! ## Main statement -/

/-- A word names a condition if it is its name character by character, as `StandsFor` has it, and
every other word is refused. With every other upper-casing that agrees on ASCII this is the same. The
words that may stand in a program are the spellings, each of which names its own condition: the
procedure that reads conditions takes nothing else, and wherever a statement, a block or a program
is read, the words in the places of conditions are the spellings of those that have been read. -/
theorem condition_names :
    (∀ (word : String) (c : Condition), Condition.parse word = .ok c ↔
      word.toList.length = c.name.toList.length ∧
        ∀ i (inWord : i < word.toList.length) (inName : i < c.name.toList.length),
          Text.StandsFor (word.toList.get ⟨i, inWord⟩) (c.name.toList.get ⟨i, inName⟩)) ∧
    (∀ word, (∀ c, Condition.parse word ≠ .ok c) →
      ∃ e, Condition.parse word = .error e ∧
        e.diagnostic = ⟨.invalidCondition, "\"" ++ word ++ "\" is not a BL condition", none⟩) ∧
    (∀ upper, Text.UpperCasing upper →
      ∀ word, Condition.resolveWith? upper word = Condition.resolve? word) ∧
    (∀ word, isCondition word = true → ∃ c, Condition.parse word = .ok c ∧ c.spelling = word) ∧
    (∀ construct q (target : Statement) c after,
      Parser.Descent.condition construct ⟨q, target⟩ = .value c after ↔
        q.front.text = c.spelling ∧ after = ⟨q.dequeue.2, target⟩) ∧
    ∀ limit q,
      (∀ s, (Parser.statement limit q).result = .ok s →
        Parser.ReadsConditions q (Parser.statement limit q).rest s.conditions) ∧
      (∀ s, (Parser.block limit q).result = .ok s →
        Parser.ReadsConditions q (Parser.block limit q).rest s.conditions) ∧
      ∀ p, (Parser.program limit q).result = .ok p →
        ∃ declarations, p.context.entries.Perm declarations ∧
          Parser.ReadsConditions q (Parser.program limit q).rest
            ((declarations.flatMap fun d => d.2.conditions) ++ p.body.conditions) := by
  refine ⟨fun word c => ?_, fun word unknown => ?_, fun upper full => Condition.resolveWith?_eq full,
    fun word known => ?_, fun _ _ _ _ _ => Parser.Descent.condition_eq_value_iff,
    fun limit q => ⟨fun _ => Parser.readsConditions_statement,
      fun _ => Parser.readsConditions_block, fun _ => Parser.readsConditions_program⟩⟩
  · rw [Condition.parse_eq_ok_iff, Condition.resolve?_eq_some_iff, List.forall₂_iff_get]
  · exact ⟨_, Condition.parse_eq_error unknown, rfl⟩
  · obtain ⟨c, rfl⟩ := isCondition_iff.mp known
    exact ⟨c, Condition.parse_spelling c, rfl⟩

/-- The upper case of letters, the acute e among those beyond ASCII. -/
def Text.latinUpperCase (c : Char) : List Char := if c = 'é' then ['É'] else upperCase c

theorem Text.upperCasing_latinUpperCase : UpperCasing latinUpperCase := by
  intro c
  by_cases h : c = 'é'
  · subst h
    exact .inr ⟨rfl, by decide, 'É', List.mem_singleton_self _, by decide⟩
  · exact .inl (if_neg h)

/-- A word of no condition, a word with a letter beyond ASCII, a spelling, and three queues. -/
theorem condition_names_words :
    (∃ e, Condition.parse "next-is-rock" = .error e ∧
      e.diagnostic = ⟨.invalidCondition, "\"next-is-rock\" is not a BL condition", none⟩) ∧
    Condition.resolveWith? Text.latinUpperCase "trué" = Condition.resolve? "trué" ∧
    (∃ c, Condition.parse "random" = .ok c ∧ c.spelling = "random") ∧
    Parser.ReadsConditions (.ofTexts ["WHILE", "true", "DO", "END", "WHILE"]) .empty [.true] ∧
    Parser.ReadsConditions (.ofTexts ["IF", "random", "THEN", "END", "IF", "END"])
      (.ofTexts ["END"]) [.random] ∧
    Parser.ReadsConditions
      (.ofTexts ["PROGRAM", "p", "IS", "BEGIN", "IF", "true", "THEN", "END", "IF", "END", "p"])
      .empty [.true] := by
  obtain ⟨-, refused, others, spellings, -, parsers⟩ := condition_names
  have unknown : Condition.resolve? "next-is-rock" = none := by decide +kernel
  refine ⟨refused _ fun c known => ?_, others _ Text.upperCasing_latinUpperCase _,
    spellings _ (by decide), (parsers none _).1 (.node (.whileDo .true) [.empty]) rfl,
    (parsers none _).2.1 (.block [.node (.ifThen .random) [.empty]]) rfl, ?_⟩
  · rw [Condition.parse_eq_ok_iff, unknown] at known
    cases known
  · obtain ⟨declarations, declares, reads⟩ := (parsers none (.ofTexts
      ["PROGRAM", "p", "IS", "BEGIN", "IF", "true", "THEN", "END", "IF", "END", "p"])).2.2
      ⟨"p", .empty, .block [.node (.ifThen .true) [.empty]]⟩ rfl
    cases List.nil_perm.mp declares
    exact reads

end RobotLang
