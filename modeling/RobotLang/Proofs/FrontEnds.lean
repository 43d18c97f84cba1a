import RobotLang.Proofs.ParsedTrees
import RobotLang.Proofs.RoundTrip
import RobotLang.Proofs.TextWords

/-!
Bare statements and programs around them. What parses, as a block and as a program, is told from the
words of a text (`Statement.parse_ok_iff`, `Program.parse_ok_iff`), and the words of a program say
where its declarations and its body end. So a text that stands for a body in a program is parsed if
and only if it is parsed alone, and to the same block (`front_ends_agree`).
-/

namespace RobotLang

open RobotLang.Parser Statement

variable {limit : Option Nat} {text : String} {p : Program}
  {declarations : List (String × Statement)} {name instruction : String} {words : List String}

/-! ## What parses -/

theorem textWords_of_split {ts : List Token} {left : TokenQueue}
    (split : (tokenize text).toList = ts ++ left.toList) (ended : left.atEnd = true) :
    textWords text = ts.map (·.text) := by
  rw [TokenQueue.toList_eq_append] at split
  obtain ⟨_ | ⟨t, rest⟩, place⟩ := left
  · rw [textWords, split, List.append_nil]
  · -- No end stands among the tokens of a text, so nothing can be left before the closing one.
    have mem : t ∈ (tokenize text).tokens := by simp [split]
    have goesOn := isEnd_of_mem_tokenize t mem
    exact absurd (ended.symm.trans goesOn) Bool.noConfusion

theorem Statement.parse_ok_iff {b : Statement} :
    Statement.parse text = .ok b ↔
      BlockAt (some nestingLimit) 0 b ∧ textWords text = b.words := by
  constructor
  · intro parsed
    simp only [Statement.parse, statements] at parsed
    split at parsed
    · cases parsed
    · rename_i accepted
      split at parsed <;> cases parsed
      rename_i ended
      obtain ⟨block, ts, split, texts⟩ := words_of_block accepted
      exact ⟨block, (textWords_of_split split ended).trans texts⟩
  · rintro ⟨⟨body, rfl, shaped, fits⟩, texts⟩
    rw [Nat.zero_add, allows_some] at fits
    exact (parse_words shaped (by rw [texts_tokenize, texts, words_block])).1 fits

theorem Program.parse_ok_iff :
    Program.parse text = .ok p ↔ ∃ declarations,
      WrittenWith (some nestingLimit) p declarations ∧
        textWords text = programWords p.name declarations p.body := by
  constructor
  · intro parsed
    obtain ⟨declarations, ts, written, split, texts, ended⟩ := words_of_program parsed
    exact ⟨declarations, written, (textWords_of_split split ended).trans texts⟩
  · rintro ⟨declarations, written, texts⟩
    obtain ⟨words, split⟩ := TokenQueue.split_of_texts (texts_tokenize text)
    rw [Program.parse, program_of_words written split (words.trans texts) rfl]

/-! ## The words of programs -/

theorem begin_not_mem_words {b : Statement} (block : BlockAt limit 0 b) :
    Keyword.begin.text ∉ b.words := by
  obtain ⟨body, rfl, shaped, -⟩ := block
  exact not_mem_wordsAll shaped (by decide) (by decide) (by decide)

theorem eq_empty_of_words {b : Statement} (block : BlockAt limit 0 b) (silent : b.words = []) :
    b = .empty := by
  obtain ⟨body, rfl, shaped, -⟩ := block
  cases shaped with
  | nil => rfl
  | _ => simp [wordsAll] at silent

theorem programWords_eq (name : String) (declarations : List (String × Statement))
    (body : Statement) :
    programWords name declarations body =
      Keyword.program.text :: name :: Keyword.is.text ::
        (declarations.flatMap declarationWords ++ Keyword.begin.text :: body.words ++
          [Keyword.end.text, name]) := by
  simp [programWords, headWords]

/-- A program whose first word behind its head is BEGIN declares nothing. -/
theorem undeclared_of_words
    (same : programWords p.name declarations p.body =
      [Keyword.program.text, name, Keyword.is.text, Keyword.begin.text] ++ words ++
        [Keyword.end.text, name]) :
    p.name = name ∧ declarations = [] ∧ p.body.words = words := by
  rw [programWords_eq] at same
  simp only [List.cons_append, List.nil_append, List.cons.injEq, true_and] at same
  obtain ⟨rfl, same⟩ := same
  rw [← List.cons_append] at same
  have same := List.append_cancel_right same
  cases declarations with
  | nil => exact ⟨rfl, rfl, (List.cons.inj same).2⟩
  | cons d rest => simp [declarationWords] at same

theorem single_of_words (distinct : (declarations.map (·.1)).Nodup)
    (same : declarations.flatMap declarationWords =
      [Keyword.instruction.text, instruction, Keyword.is.text] ++ words ++
        [Keyword.end.text, instruction]) :
    ∃ b, declarations = [(instruction, b)] ∧ b.words = words := by
  obtain _ | ⟨⟨first, b⟩, rest⟩ := declarations
  · cases same
  simp only [List.flatMap_cons, declarationWords, List.cons_append, List.nil_append,
    List.cons.injEq, true_and] at same
  obtain ⟨rfl, same⟩ := same
  rcases List.eq_nil_or_concat rest with rfl | ⟨between, last, rfl⟩
  · simp only [List.flatMap_nil, List.append_nil] at same
    exact ⟨b, rfl, List.append_cancel_right same⟩
  · -- The last of several declarations would close with the name of the first one.
    have closing : last.1 = first := by
      simpa [declarationWords] using congrArg (·.reverse.head?) same
    simp [closing] at distinct

theorem declares_of_words (written : WrittenWith limit p declarations)
    (same : programWords p.name declarations p.body =
      [Keyword.program.text, name, Keyword.is.text, Keyword.instruction.text, instruction,
        Keyword.is.text] ++ words ++
        [Keyword.end.text, instruction, Keyword.begin.text, Keyword.end.text, name]) :
    p.name = name ∧ p.body = .empty ∧ ∃ b, declarations = [(instruction, b)] ∧ b.words = words := by
  rw [programWords_eq] at same
  simp only [List.cons_append, List.nil_append, List.cons.injEq, true_and] at same
  obtain ⟨rfl, same⟩ := same
  -- Behind the last BEGIN stands no word of the body, since there is no BEGIN in a body.
  have same : declarations.flatMap declarationWords ++ Keyword.begin.text :: p.body.words ++
      [Keyword.end.text, p.name] =
        [Keyword.instruction.text, instruction, Keyword.is.text] ++ words ++
          [Keyword.end.text, instruction] ++ [Keyword.begin.text] ++
            [Keyword.end.text, p.name] := by
    simpa using same
  have same := List.append_cancel_right same
  have empty : p.body.words = [] := by
    rcases List.eq_nil_or_concat p.body.words with empty | ⟨before, last, spelled⟩
    · exact empty
    · have isBegin : last = Keyword.begin.text := by
        simpa [spelled] using congrArg (·.reverse.head?) same
      exact absurd (by simp [spelled, isBegin]) (begin_not_mem_words written.body)
  rw [empty] at same
  exact ⟨rfl, eq_empty_of_words written.body empty,
    single_of_words written.distinct (List.append_cancel_right same)⟩

/-! ## Texts inside programs -/

/-- The text of a program without instructions, with this text for its body. -/
def Program.withBody (name text : String) : String :=
  s!"PROGRAM {name} IS BEGIN\n{text}\nEND {name}"

/-- The text of a program that does nothing, with this text for the body of its one instruction. -/
def Program.withInstruction (name instruction text : String) : String :=
  s!"PROGRAM {name} IS INSTRUCTION {instruction} IS\n{text}\nEND {instruction} BEGIN END {name}"

theorem textWords_between {before after : List String}
    (inside : ∀ word ∈ before ++ after, InWordChars word) (text : String) :
    textWords (Layout.spaced before ++ "\n" ++ text ++ "\n" ++ Layout.spaced after) =
      before ++ textWords text ++ after := by
  obtain ⟨insideBefore, insideAfter⟩ := List.forall_mem_append.mp inside
  rw [textWords_newline, textWords_newline, textWords_spaced insideBefore,
    textWords_spaced insideAfter]

theorem textWords_withBody (named : isIdentifier name = true) (text : String) :
    textWords (Program.withBody name text) =
      [Keyword.program.text, name, Keyword.is.text, Keyword.begin.text] ++ textWords text ++
        [Keyword.end.text, name] := by
  have lines : Program.withBody name text =
      Layout.spaced [Keyword.program.text, name, Keyword.is.text, Keyword.begin.text] ++ "\n" ++
        text ++ "\n" ++ Layout.spaced [Keyword.end.text, name] := by
    have opening : "PROGRAM " = "PROGRAM" ++ " " := by decide
    have begins : " IS BEGIN\n" = " " ++ "IS" ++ " " ++ "BEGIN" ++ "\n" := by decide
    have closing : "\nEND " = "\n" ++ "END" ++ " " := by decide
    unfold Program.withBody
    simp only [toString]
    rw [opening, begins, closing]
    simp only [Layout.spaced, Keyword.text, String.append_assoc]
  rw [lines]
  exact textWords_between (by simp [inWordChars_keyword, inWordChars_identifier named]) text

theorem textWords_withInstruction (named : isIdentifier name = true)
    (instructionNamed : isIdentifier instruction = true) (text : String) :
    textWords (Program.withInstruction name instruction text) =
      [Keyword.program.text, name, Keyword.is.text, Keyword.instruction.text, instruction,
        Keyword.is.text] ++ textWords text ++
        [Keyword.end.text, instruction, Keyword.begin.text, Keyword.end.text, name] := by
  have lines : Program.withInstruction name instruction text =
      Layout.spaced [Keyword.program.text, name, Keyword.is.text, Keyword.instruction.text,
        instruction, Keyword.is.text] ++ "\n" ++ text ++ "\n" ++
        Layout.spaced [Keyword.end.text, instruction, Keyword.begin.text, Keyword.end.text,
          name] := by
    have opening : "PROGRAM " = "PROGRAM" ++ " " := by decide
    have declares : " IS INSTRUCTION " = " " ++ "IS" ++ " " ++ "INSTRUCTION" ++ " " := by decide
    have begins : " IS\n" = " " ++ "IS" ++ "\n" := by decide
    have closing : "\nEND " = "\n" ++ "END" ++ " " := by decide
    have idle : " BEGIN END " = " " ++ "BEGIN" ++ " " ++ "END" ++ " " := by decide
    unfold Program.withInstruction
    simp only [toString]
    rw [opening, declares, begins, closing, idle]
    simp only [Layout.spaced, Keyword.text, String.append_assoc]
  rw [lines]
  refine textWords_between ?_ text
  simp [inWordChars_keyword, inWordChars_identifier named, inWordChars_identifier instructionNamed]

theorem parse_withBody_iff (named : isIdentifier name = true) :
    Program.parse (Program.withBody name text) = .ok p ↔
      ∃ b, Statement.parse text = .ok b ∧ p = ⟨name, .empty, b⟩ := by
  constructor
  · intro parsed
    obtain ⟨declarations, written, texts⟩ := Program.parse_ok_iff.mp parsed
    rw [textWords_withBody named] at texts
    obtain ⟨rfl, rfl, words⟩ := undeclared_of_words texts.symm
    have silent : p.context = .empty := Context.eq_of_perm written.declares
    refine ⟨p.body, Statement.parse_ok_iff.mpr ⟨written.body, words.symm⟩, ?_⟩
    rw [← silent]
  · rintro ⟨b, parsed, rfl⟩
    obtain ⟨block, texts⟩ := Statement.parse_ok_iff.mp parsed
    refine Program.parse_ok_iff.mpr ⟨[], ⟨named, by simp, by simp, .refl _, block⟩, ?_⟩
    rw [textWords_withBody named, texts]
    rfl

theorem parse_withInstruction_iff (named : isIdentifier name = true)
    (instructionNamed : Program.isInstructionName instruction = true) :
    Program.parse (Program.withInstruction name instruction text) = .ok p ↔
      ∃ b, Statement.parse text = .ok b ∧ p = ⟨name, .ofEntries [(instruction, b)], .empty⟩ := by
  have isName := (isInstructionName_iff.mp instructionNamed).1
  constructor
  · intro parsed
    obtain ⟨declarations, written, texts⟩ := Program.parse_ok_iff.mp parsed
    rw [textWords_withInstruction named isName] at texts
    obtain ⟨rfl, idle, b, rfl, words⟩ := declares_of_words written texts.symm
    have block := (written.fit (instruction, b) List.mem_cons_self).2
    have context := (Context.ofEntries_eq_iff written.distinct).mpr written.declares
    refine ⟨b, Statement.parse_ok_iff.mpr ⟨block, words.symm⟩, ?_⟩
    rw [context, ← idle]
  · rintro ⟨b, parsed, rfl⟩
    obtain ⟨block, texts⟩ := Statement.parse_ok_iff.mp parsed
    have idle : BlockAt (some nestingLimit) 0 .empty := ⟨[], rfl, .nil, allows_zero _⟩
    refine Program.parse_ok_iff.mpr ⟨[(instruction, b)], ⟨named, ?_, by simp, .refl _, idle⟩, ?_⟩
    · simpa using ⟨instructionNamed, block⟩
    · rw [textWords_withInstruction named isName, texts]
      simp [programWords, headWords, declarationWords, Statement.empty, wordsAll]

theorem toOption_eq_map {α β : Type} {x : Except ParseError α} {y : Except ParseError β}
    {f : α → β} (same : ∀ b, y = .ok b ↔ ∃ a, x = .ok a ∧ b = f a) :
    y.toOption = x.toOption.map f := by
  cases x with
  | ok a =>
    rw [(same (f a)).mpr ⟨a, rfl, rfl⟩]
    rfl
  | error e =>
    cases y with
    | error => rfl
    | ok b =>
      obtain ⟨a, accepted, -⟩ := (same b).mp rfl
      cases accepted

/-- A text parses in the place of a body if and only if it parses alone, and then the program has
nothing but the block that it parses to. -/
theorem front_ends_agree (named : isIdentifier name = true)
    (instructionNamed : Program.isInstructionName instruction = true) (text : String) :
    (Program.parse (Program.withBody name text)).toOption =
        (Statement.parse text).toOption.map (fun b => ⟨name, .empty, b⟩) ∧
      (Program.parse (Program.withInstruction name instruction text)).toOption =
        (Statement.parse text).toOption.map
          (fun b => ⟨name, .ofEntries [(instruction, b)], .empty⟩) :=
  ⟨toOption_eq_map fun _ => parse_withBody_iff named,
    toOption_eq_map fun _ => parse_withInstruction_iff named instructionNamed⟩

/-- A text that ends in a comment is a body, and one that closes its declaration and opens another
one of the same name is none. -/
theorem front_ends_agree_comment_and_reopening :
    isIdentifier "p" = true ∧ Program.isInstructionName "go" = true ∧
      (Program.parse (Program.withBody "p" "move # on")).toOption =
        some ⟨"p", .empty, .block [.call "move"]⟩ ∧
      (Program.parse (Program.withInstruction "p" "go" "END go INSTRUCTION go IS")).toOption =
        none := by
  have named : isIdentifier "p" = true := by decide +kernel
  have instructionNamed : Program.isInstructionName "go" = true := by decide +kernel
  have read : (Statement.parse "move # on").toOption = some (.block [.call "move"]) := rfl
  have refused : (Statement.parse "END go INSTRUCTION go IS").toOption = none := rfl
  have comment := (front_ends_agree named instructionNamed "move # on").1
  have reopening := (front_ends_agree named instructionNamed "END go INSTRUCTION go IS").2
  rw [read] at comment
  rw [refused] at reopening
  exact ⟨named, instructionNamed, comment, reopening⟩

end RobotLang
