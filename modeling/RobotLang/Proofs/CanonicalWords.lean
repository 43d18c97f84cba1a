import RobotLang.Layout
import RobotLang.Proofs.ProgramState
import RobotLang.Token.Scanner

/-!
The words of canonical text. A text that is written in words with blanks behind them is scanned to
these words (`Scanner.Yields`), and each piece that is written adds its words to the text
(`Layout.Writes`). Main statements: the canonical text of a statement or program has the words of
that statement or program (`texts_statement`, `texts_program`).
-/

namespace RobotLang

open RobotLang.Parser Statement

/-! ## Scanning words -/

/-- The word is written in word characters alone. -/
def InWordChars (word : String) : Prop := word.toList ≠ [] ∧ word.toList.all isWordChar = true

theorem inWordChars_keyword (k : Keyword) : InWordChars k.text := by
  cases k <;> exact ⟨by decide, by decide⟩

theorem inWordChars_spelling (c : Condition) : InWordChars c.spelling := by
  cases c <;> exact ⟨by decide, by decide⟩

theorem inWordChars_identifier {word : String} (named : isIdentifier word = true) :
    InWordChars word := by
  have shape := (isIdentifier_iff.mp named).1
  unfold InWordChars
  cases spelled : word.toList with
  | nil => simp [spelled, hasNameShape] at shape
  | cons c cs =>
    simp only [spelled, hasNameShape, Bool.and_eq_true] at shape
    have first : isWordChar c = true := by simp [isWordChar, Char.isAlphanum, shape.1]
    exact ⟨by simp, by simpa [first] using shape.2⟩

namespace Scanner

/-- Between tokens, the characters are scanned to tokens with these words, up to where no token is
under way. -/
def Yields (cs : List Char) (words : List String) : Prop :=
  ∀ found place, ∃ (ts : List Token) (last : Span),
    (⟨found, place, .gap⟩ : Scanner).scan cs = ⟨ts.reverse ++ found, last, .gap⟩ ∧
      ts.map (·.text) = words

theorem Yields.nil : Yields [] [] := fun _ place => ⟨[], place, rfl, rfl⟩

theorem Yields.append {cs ds : List Char} {ws us : List String} (first : Yields cs ws)
    (after : Yields ds us) : Yields (cs ++ ds) (ws ++ us) := by
  intro found place
  obtain ⟨ts, between, scanned, texts⟩ := first found place
  obtain ⟨more, last, scannedAfter, textsAfter⟩ := after (ts.reverse ++ found) between
  refine ⟨ts ++ more, last, ?_, by rw [List.map_append, texts, textsAfter]⟩
  rw [scan_append, scanned, scannedAfter, List.reverse_append, List.append_assoc]

/-- The characters that canonical text writes behind words. -/
def Parts (c : Char) : Prop := c = ' ' ∨ c = '\n'

theorem fresh_of_parts {c : Char} (parts : Parts c) (found : List Token) (place : Span) :
    fresh found place c = ⟨found, place.after c, .gap⟩ := by
  rcases parts with rfl | rfl <;> rfl

theorem isWordChar_of_parts {c : Char} (parts : Parts c) : isWordChar c = false := by
  rcases parts with rfl | rfl <;> rfl

theorem yields_parts {c : Char} (parts : Parts c) : Yields [c] [] := fun found place =>
  ⟨[], place.after c, fresh_of_parts parts found place, rfl⟩

theorem yields_spaces (n : Nat) : Yields (List.replicate n ' ') [] := by
  induction n with
  | zero => exact .nil
  | succ n ih => exact (yields_parts (.inl rfl)).append ih

theorem scan_wordChars {cs : List Char} (inside : ∀ c ∈ cs, isWordChar c = true)
    (found : List Token) (place start : Span) (chars : List Char) :
    ∃ last, (⟨found, place, .word start chars⟩ : Scanner).scan cs =
      ⟨found, last, .word start (cs.reverse ++ chars)⟩ := by
  induction cs generalizing place chars with
  | nil => exact ⟨place, rfl⟩
  | cons c cs ih =>
    obtain ⟨first, after⟩ := List.forall_mem_cons.mp inside
    obtain ⟨last, scanned⟩ := ih after (place.after c) (c :: chars)
    refine ⟨last, ?_⟩
    rw [scan, List.foldl_cons, step]
    simp only [first, if_true]
    rw [← scan, scanned, List.reverse_cons, List.append_assoc, List.singleton_append]

theorem step_behind_word {c : Char} (parts : Parts c) (found : List Token) (place start : Span)
    (word : String) :
    (⟨found, place, .word start word.toList.reverse⟩ : Scanner).step c =
      ⟨⟨word, some start⟩ :: found, place.after c, .gap⟩ := by
  simp [step, isWordChar_of_parts parts, completed, fresh_of_parts parts]

theorem yields_word {word : String} {c : Char} (inside : InWordChars word) (parts : Parts c) :
    Yields (word.toList ++ [c]) [word] := by
  intro found place
  obtain ⟨nonempty, chars⟩ := inside
  obtain ⟨first, cs, spelled⟩ := List.exists_cons_of_ne_nil nonempty
  rw [spelled, List.all_eq_true] at chars
  obtain ⟨firstIn, restIn⟩ := List.forall_mem_cons.mp chars
  obtain ⟨last, scanned⟩ := scan_wordChars restIn found (place.after first) place [first]
  have opened : fresh found place first = ⟨found, place.after first, .word place [first]⟩ := by
    simp only [fresh, firstIn, if_true]
  have whole : (⟨found, place, .gap⟩ : Scanner).scan word.toList =
      ⟨found, last, .word place word.toList.reverse⟩ := by
    rw [spelled, List.reverse_cons, ← scanned, ← opened]
    rfl
  refine ⟨[⟨word, some place⟩], last.after c, ?_, rfl⟩
  rw [scan_append, whole]
  exact step_behind_word parts found last place word

theorem Yields.word {word : String} {cs : List Char} {ws : List String} (inside : InWordChars word)
    (after : Yields cs ws) : Yields (word.toList ++ ' ' :: cs) (word :: ws) := by
  have h := (yields_word inside (.inl rfl)).append after
  rwa [List.append_assoc] at h

theorem texts_of_yields {text : String} {words : List String} (h : Yields text.toList words) :
    (tokenize text).texts = words ++ [endOfInput] := by
  obtain ⟨ts, last, scanned, texts⟩ := h [] .start
  simp [tokenize, start, scanned, finish, completed, TokenQueue.texts, TokenQueue.toList,
    TokenQueue.closing, texts]

end Scanner

/-! ## Writing words -/

namespace Layout

open Scanner

/-- The words, with a space between any two. -/
def spaced : List String → String
  | [] => ""
  | [word] => word
  | word :: words => word ++ " " ++ spaced words

theorem yields_spaced {words : List String} (inside : ∀ word ∈ words, InWordChars word) :
    Yields ((spaced words).toList ++ ['\n']) words := by
  induction words with
  | nil => exact yields_parts (.inr rfl)
  | cons word words ih =>
    obtain ⟨first, after⟩ := List.forall_mem_cons.mp inside
    cases words with
    | nil => exact yields_word first (.inr rfl)
    | cons second rest => simpa [spaced] using (ih after).word first

/-- What is written behind a text adds these words to it. -/
def Writes (write : String → String) (words : List String) : Prop :=
  ∀ out, ∃ cs, (write out).toList = out.toList ++ cs ∧ Yields cs words

variable {f g : String → String} {ws us : List String}

theorem Writes.nothing : Writes (fun out => out) [] := fun out => ⟨[], by simp, .nil⟩

theorem Writes.comp (after : Writes g us) (first : Writes f ws) :
    Writes (fun out => g (f out)) (ws ++ us) := by
  intro out
  obtain ⟨cs, written, yields⟩ := first out
  obtain ⟨ds, writtenAfter, yieldsAfter⟩ := after (f out)
  exact ⟨cs ++ ds, by rw [writtenAfter, written, List.append_assoc], yields.append yieldsAfter⟩

theorem writes_line (indent : Nat) {text : String} {words : List String}
    (spelled : text = spaced words) (inside : ∀ word ∈ words, InWordChars word) :
    Writes (writeLine indent text) words := by
  intro out
  refine ⟨List.replicate indent ' ' ++ (text.toList ++ ['\n']), by simp [writeLine, spaces], ?_⟩
  rw [spelled]
  exact (yields_spaces indent).append (yields_spaced inside)

theorem ifLine_eq (c : Condition) :
    s!"IF {c.spelling} THEN" = spaced [Keyword.if.text, c.spelling, Keyword.then.text] := by
  simp [spaced, Keyword.text, toString, String.append_assoc]

theorem endIfLine_eq : "END IF" = spaced [Keyword.end.text, Keyword.if.text] := by decide

theorem whileLine_eq (c : Condition) :
    s!"WHILE {c.spelling} DO" = spaced [Keyword.while.text, c.spelling, Keyword.do.text] := by
  simp [spaced, Keyword.text, toString, String.append_assoc]

theorem endWhileLine_eq : "END WHILE" = spaced [Keyword.end.text, Keyword.while.text] := by decide

theorem writes_ifLine (indent : Nat) (c : Condition) :
    Writes (writeLine indent s!"IF {c.spelling} THEN")
      [Keyword.if.text, c.spelling, Keyword.then.text] :=
  writes_line indent (ifLine_eq c) (by simp [inWordChars_keyword, inWordChars_spelling])

theorem writes_elseLine (indent : Nat) : Writes (writeLine indent "ELSE") [Keyword.else.text] :=
  writes_line indent rfl (by simp [inWordChars_keyword])

theorem writes_endIfLine (indent : Nat) :
    Writes (writeLine indent "END IF") [Keyword.end.text, Keyword.if.text] :=
  writes_line indent endIfLine_eq (by simp [inWordChars_keyword])

theorem writes_whileLine (indent : Nat) (c : Condition) :
    Writes (writeLine indent s!"WHILE {c.spelling} DO")
      [Keyword.while.text, c.spelling, Keyword.do.text] :=
  writes_line indent (whileLine_eq c) (by simp [inWordChars_keyword, inWordChars_spelling])

theorem writes_endWhileLine (indent : Nat) :
    Writes (writeLine indent "END WHILE") [Keyword.end.text, Keyword.while.text] :=
  writes_line indent endWhileLine_eq (by simp [inWordChars_keyword])

theorem writes_callLine (indent : Nat) {instruction : String}
    (named : isIdentifier instruction = true) :
    Writes (writeLine indent instruction) [instruction] :=
  writes_line indent rfl (by simpa using inWordChars_identifier named)

theorem writes_body {body : List Statement} (shaped : Body body) (indent : Nat) :
    Writes (fun out => writeAll indent out body) (wordsAll body) := by
  induction shaped generalizing indent with
  | nil => exact .nothing
  | call named _ ih => exact (ih indent).comp (writes_callLine indent named)
  | @ifThen c body rest _ _ inside ih =>
    have block := (inside (indent + indentWidth)).comp (writes_ifLine indent c)
    have whole := (ih indent).comp ((writes_endIfLine indent).comp block)
    rw [wordsAll, words_ifThen]
    exact whole
  | @ifElse c yes no rest _ _ _ insideYes insideNo ih =>
    have first := (insideYes (indent + indentWidth)).comp (writes_ifLine indent c)
    have second := (insideNo (indent + indentWidth)).comp ((writes_elseLine indent).comp first)
    have whole := (ih indent).comp ((writes_endIfLine indent).comp second)
    rw [wordsAll, words_ifElse]
    simp only [List.append_assoc, List.cons_append, List.nil_append] at whole ⊢
    exact whole
  | @whileDo c body rest _ _ inside ih =>
    have block := (inside (indent + indentWidth)).comp (writes_whileLine indent c)
    have whole := (ih indent).comp ((writes_endWhileLine indent).comp block)
    rw [wordsAll, words_whileDo]
    exact whole

theorem writes_namedLine {keyword : Keyword} (indent : Nat) {name text : String}
    (named : isIdentifier name = true) (spelled : text = spaced [keyword.text, name]) :
    Writes (writeLine indent text) [keyword.text, name] :=
  writes_line indent spelled (by simpa [inWordChars_keyword] using inWordChars_identifier named)

theorem writes_isLine {keyword : Keyword} (indent : Nat) {name text : String}
    (named : isIdentifier name = true)
    (spelled : text = spaced [keyword.text, name, Keyword.is.text]) :
    Writes (writeLine indent text) [keyword.text, name, Keyword.is.text] :=
  writes_line indent spelled (by simpa [inWordChars_keyword] using inWordChars_identifier named)

theorem writes_blankLine : Writes (fun out => out ++ "\n") [] := by
  intro out
  exact ⟨['\n'], by simp, yields_parts (.inr rfl)⟩

variable {limit : Option Nat}

theorem writes_declaration {d : String × Statement} (fit : DeclarationAt limit d) :
    Writes (fun out => writeDeclaration out d) (declarationWords d) := by
  obtain ⟨instruction, _⟩ := d
  obtain ⟨named, body, rfl, shaped, -⟩ := fit
  have named := (isInstructionName_iff.mp named).1
  have head : Writes (writeLine indentWidth s!"INSTRUCTION {instruction} IS")
      [Keyword.instruction.text, instruction, Keyword.is.text] :=
    writes_isLine indentWidth named (by simp [spaced, Keyword.text, toString, String.append_assoc])
  have last :
      Writes (writeLine indentWidth s!"END {instruction}") [Keyword.end.text, instruction] :=
    writes_namedLine indentWidth named (by simp [spaced, Keyword.text, toString])
  have whole := writes_blankLine.comp (last.comp ((writes_body shaped (2 * indentWidth)).comp head))
  rw [List.append_nil] at whole
  exact whole

theorem writes_declarations {ds : List (String × Statement)}
    (fit : ∀ d ∈ ds, DeclarationAt limit d) :
    Writes (fun out => ds.foldl writeDeclaration out) (ds.flatMap declarationWords) := by
  induction ds with
  | nil => exact .nothing
  | cons d ds ih =>
    obtain ⟨first, after⟩ := List.forall_mem_cons.mp fit
    exact (ih after).comp (writes_declaration first)

end Layout

/-! ## Canonical texts -/

theorem texts_of_writes {f : String → String} {words : List String} {text : String}
    (h : Layout.Writes f words) (written : text = f "") :
    (tokenize text).texts = words ++ [endOfInput] := by
  obtain ⟨cs, appended, yields⟩ := h ""
  refine Scanner.texts_of_yields ?_
  rw [written, appended]
  exact yields

theorem texts_block {body : List Statement} (shaped : Body body) (indent : Nat) :
    (tokenize ((Statement.block body).text indent)).texts = wordsAll body ++ [endOfInput] := by
  refine texts_of_writes (Layout.writes_body shaped indent) ?_
  rw [Statement.text, Statement.block, Layout.write]

theorem texts_item {s : Statement} (item : s.Item) (indent : Nat) :
    (tokenize (s.text indent)).texts = s.words ++ [endOfInput] := by
  have body : Body [s] := body_of_items [s] (by simpa using item)
  have texts := texts_block body indent
  have same : (Statement.block [s]).text indent = s.text indent := by
    simp only [Statement.text, Statement.block, Layout.write, Layout.writeAll]
  simpa [same, wordsAll] using texts

theorem texts_statement {s : Statement} (shaped : s.WellShaped) (indent : Nat) :
    (tokenize (s.text indent)).texts = s.words ++ [endOfInput] := by
  by_cases isBlock : s.kind = .block
  · rw [eq_block_of_kind isBlock] at shaped ⊢
    exact texts_block (wellShaped_block_iff.mp shaped) indent
  · exact texts_item ⟨isBlock, shaped⟩ indent

theorem texts_program {limit : Option Nat} {p : Program} (named : isIdentifier p.name = true)
    (fit : ∀ d ∈ p.context.entries, DeclarationAt limit d) (body : BlockAt limit 0 p.body) :
    (tokenize p.text).texts = programWords p.name p.context.entries p.body ++ [endOfInput] := by
  obtain ⟨name, context, _⟩ := p
  obtain ⟨statements, rfl, shaped, -⟩ := body
  have head : Layout.Writes (Layout.writeLine 0 s!"PROGRAM {name} IS")
      [Keyword.program.text, name, Keyword.is.text] :=
    Layout.writes_isLine 0 named
      (by simp [Layout.spaced, Keyword.text, toString, String.append_assoc])
  have begins : Layout.Writes (Layout.writeLine 0 "BEGIN") [Keyword.begin.text] :=
    Layout.writes_line 0 rfl (by simp [inWordChars_keyword])
  have last : Layout.Writes (Layout.writeLine 0 s!"END {name}") [Keyword.end.text, name] :=
    Layout.writes_namedLine 0 named (by simp [Layout.spaced, Keyword.text, toString])
  have declared := (Layout.writes_declarations fit).comp (Layout.writes_blankLine.comp head)
  have whole := last.comp
    ((Layout.writes_body shaped Layout.indentWidth).comp (begins.comp declared))
  rw [List.append_nil] at whole
  refine texts_of_writes whole ?_
  simp only [Program.text, Statement.block, Layout.write]

end RobotLang
