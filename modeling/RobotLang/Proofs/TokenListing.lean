import RobotLang.Proofs.FrontEnds
import RobotLang.Proofs.JsonTexts
import RobotLang.Proofs.Positions
import RobotLang.Proofs.Tool

/-!
The listing of tokens. Every word is of one class, and of no other (`classify_eq_iff`). A listing has
a line for each token, whose cells are told apart by tabs and hold none, so it can be read back
(`cellsOf_listing`), and what it says about a token can have been said about no other
(`listing_injective`). The words of no class are those that no program and no block is written in
(`refuses_of_error`).

Main statement: `tokens_listed`.
-/

namespace RobotLang

open RobotLang.Parser Statement

variable {word text : String} {c : Char} {kind : TokenClass} {t : Token}

/-! ## Classes of words -/

/-- The word is one of the class. -/
def TokenClass.Holds (word : String) : TokenClass → Prop
  | endOfInput => word = RobotLang.endOfInput
  | keyword => isKeyword word = true
  | condition => isCondition word = true
  | identifier => isIdentifier word = true
  | error => word ≠ RobotLang.endOfInput ∧ isKeyword word = false ∧ isCondition word = false ∧
      isIdentifier word = false

theorem classify_of_holds (holds : kind.Holds word) : classify word = kind := by
  cases kind with
  | endOfInput => exact if_pos holds
  | keyword =>
    obtain ⟨k, rfl⟩ := isKeyword_iff.mp holds
    simp [classify, k.text_ne_endOfInput, isKeyword_text]
  | condition =>
    obtain ⟨c, rfl⟩ := isCondition_iff.mp holds
    have notKeyword : isKeyword c.spelling = false := by cases c <;> decide
    have isCondition : isCondition c.spelling = true := holds
    simp [classify, c.spelling_ne_endOfInput, notKeyword, isCondition]
  | identifier =>
    have named : isIdentifier word = true := holds
    obtain ⟨-, notKeyword, notCondition⟩ := isIdentifier_iff.mp named
    simp [classify, ne_endOfInput_of_isIdentifier named, notKeyword, notCondition, named]
  | error =>
    obtain ⟨other, notKeyword, notCondition, notIdentifier⟩ := holds
    simp [classify, other, notKeyword, notCondition, notIdentifier]

theorem holds_classify (word : String) : (classify word).Holds word := by
  unfold classify
  split
  · assumption
  split
  · assumption
  split
  · assumption
  split
  · assumption
  · rename_i other notKeyword notCondition notIdentifier
    exact ⟨other, by simpa using notKeyword, by simpa using notCondition,
      by simpa using notIdentifier⟩

theorem classify_eq_iff : classify word = kind ↔ kind.Holds word := by
  refine ⟨?_, classify_of_holds⟩
  rintro rfl
  exact holds_classify word

theorem TokenClass.display_injective {k l : TokenClass} (same : k.display = l.display) : k = l := by
  revert same
  cases k <;> cases l <;> decide

/-! ## Words of no class -/

/-- A character that no word has, or a run of word characters that begins as no word does. -/
def IsStray (word : String) : Prop :=
  (∃ c, word.toList = [c] ∧ isWordChar c = false) ∨
    InWordChars word ∧ ∃ c ∈ word.toList.head?, c.isDigit = true ∨ c = '-'

theorem isAlpha_eq_false_of_isDigit (digit : c.isDigit = true) : c.isAlpha = false := by
  rw [← Bool.not_eq_true]
  intro letter
  unfold Char.isDigit at digit
  unfold Char.isAlpha Char.isUpper Char.isLower at letter
  simp only [Bool.or_eq_true, Bool.and_eq_true, decide_eq_true_eq, UInt32.le_iff_toNat_le,
    ge_iff_le] at digit letter
  change 48 ≤ c.toNat ∧ c.toNat ≤ 57 at digit
  change (65 ≤ c.toNat ∧ c.toNat ≤ 90) ∨ (97 ≤ c.toNat ∧ c.toNat ≤ 122) at letter
  omega

theorem isAlpha_eq_false_iff (inside : isWordChar c = true) :
    c.isAlpha = false ↔ c.isDigit = true ∨ c = '-' := by
  constructor
  · intro noLetter
    simpa only [isWordChar, Char.isAlphanum, noLetter, Bool.false_or, Bool.or_eq_true,
      beq_iff_eq] using inside
  · rintro (digit | rfl)
    · exact isAlpha_eq_false_of_isDigit digit
    · rfl

theorem hasNameShape_keyword (k : Keyword) : hasNameShape k.text.toList = true := by
  cases k <;> decide

theorem hasNameShape_spelling (c : Condition) : hasNameShape c.spelling.toList = true := by
  cases c <;> decide

/-- Words of the shape of a name are of a class, and so is the end of the input. -/
theorem classify_eq_error_iff :
    classify word = .error ↔ word ≠ endOfInput ∧ hasNameShape word.toList = false := by
  rw [classify_eq_iff, TokenClass.Holds]
  refine and_congr_right fun _ => ⟨?_, fun shapeless => ?_⟩
  · rintro ⟨notKeyword, notCondition, notIdentifier⟩
    simpa [isIdentifier, notKeyword, notCondition] using notIdentifier
  · refine ⟨?_, ?_, by simp [isIdentifier, shapeless]⟩
    · rw [← Bool.not_eq_true, isKeyword_iff]
      rintro ⟨k, rfl⟩
      simp [hasNameShape_keyword] at shapeless
    · rw [← Bool.not_eq_true, isCondition_iff]
      rintro ⟨c, rfl⟩
      simp [hasNameShape_spelling] at shapeless

theorem hasNameShape_eq_false_iff (isWord : IsWord word) :
    hasNameShape word.toList = false ↔ IsStray word := by
  rcases isWord with inside | ⟨c, single, notWord, -⟩
  · have ⟨nonempty, chars⟩ := inside
    obtain ⟨c, more, spelled⟩ := List.exists_cons_of_ne_nil nonempty
    rw [spelled, List.all_cons, Bool.and_eq_true] at chars
    have first : IsStray word ↔ c.isDigit = true ∨ c = '-' := by
      simp only [IsStray, spelled, List.head?_cons, Option.mem_def, Option.some.injEq, inside,
        true_and, exists_eq_left']
      refine or_iff_right ?_
      rintro ⟨d, single, notWord⟩
      cases single
      simp [notWord] at chars
    rw [spelled, first, ← isAlpha_eq_false_iff chars.1]
    simp [hasNameShape, chars.2]
  · have noLetter : c.isAlpha = false := by
      simp only [isWordChar, Char.isAlphanum, Bool.or_eq_false_iff] at notWord
      exact notWord.1.1
    rw [single]
    simp only [hasNameShape, noLetter, Bool.false_and, true_iff]
    exact .inl ⟨c, single, notWord⟩

/-! ## Words of tokens -/

theorem IsWord.not_isBlank (isWord : IsWord word) : ∀ c ∈ word.toList, Text.isBlank c = false := by
  intro c mem
  rcases isWord with ⟨-, inside⟩ | ⟨d, single, -, notBlank, -⟩
  · rw [← Bool.not_eq_true]
    intro blank
    have wordChar := List.all_eq_true.mp inside c mem
    rw [(Text.not_isWordChar_of_isBlank blank).1] at wordChar
    cases wordChar
  · rw [single, List.mem_singleton] at mem
    exact mem ▸ notBlank

/-- The only white space in tokens is the space in the one that closes them. -/
theorem eq_space_of_isBlank (mem : t ∈ (tokenize text).toList) :
    ∀ c ∈ t.text.toList, Text.isBlank c = true → c = ' ' := by
  intro c inside blank
  rcases List.mem_append.mp mem with mem | mem
  · simp [(isWord_of_mem_tokenize mem).not_isBlank c inside] at blank
  · obtain rfl := List.mem_singleton.mp mem
    have blanks : endOfInput.toList.filter Text.isBlank = List.replicate 4 ' ' := by decide
    exact List.eq_of_mem_replicate (blanks ▸ List.mem_filter.mpr ⟨inside, blank⟩)

theorem classify_of_mem_tokenize (mem : t ∈ (tokenize text).toList) :
    classify t.text = .error ↔ IsStray t.text := by
  rw [classify_eq_error_iff]
  rcases List.mem_append.mp mem with mem | mem
  · rw [hasNameShape_eq_false_iff (isWord_of_mem_tokenize mem)]
    exact and_iff_right (Token.isEnd_eq_false.mp (isEnd_of_mem_tokenize t mem))
  · obtain rfl := List.mem_singleton.mp mem
    refine iff_of_false (fun ⟨other, _⟩ => other rfl) ?_
    rintro (⟨c, single, -⟩ | ⟨⟨-, inside⟩, -⟩)
    · exact absurd (congrArg List.length single) (by decide : endOfInput.toList.length ≠ 1)
    · exact absurd inside (by decide : ¬ endOfInput.toList.all isWordChar = true)

/-! ## Words that are parsed -/

theorem not_mem_words_of_error {b : Statement} {limit : Option Nat} (block : BlockAt limit 0 b)
    (stray : classify word = .error) : word ∉ b.words := by
  obtain ⟨-, notKeyword, notCondition, notIdentifier⟩ := classify_eq_iff.mp stray
  obtain ⟨body, rfl, shaped, -⟩ := block
  refine not_mem_wordsAll shaped notIdentifier notCondition fun k _ isKey => ?_
  rw [isKey, isKeyword_text] at notKeyword
  cases notKeyword

theorem not_mem_programWords_of_error {p : Program} {declarations : List (String × Statement)}
    {limit : Option Nat} (written : WrittenWith limit p declarations)
    (stray : classify word = .error) : word ∉ programWords p.name declarations p.body := by
  obtain ⟨-, notKeyword, -, notIdentifier⟩ := classify_eq_iff.mp stray
  have notKey (k : Keyword) : word ≠ k.text := by
    rintro rfl
    simp [isKeyword_text] at notKeyword
  have notName {name : String} (named : isIdentifier name = true) : word ≠ name := by
    rintro rfl
    simp [named] at notIdentifier
  have declared : ∀ d ∈ declarations, word ∉ declarationWords d := by
    intro d mem
    obtain ⟨named, block⟩ := written.fit d mem
    have name := notName (isInstructionName_iff.mp named).1
    simp [declarationWords, notKey, name, not_mem_words_of_error block stray]
  have name := notName written.named
  have body := not_mem_words_of_error written.body stray
  simpa [programWords_eq, notKey, name, body] using fun name b mem => declared (name, b) mem

/-- No text with a word of no class is a program or a block. -/
theorem refuses_of_error (mem : t ∈ (tokenize text).toList) (stray : classify t.text = .error) :
    (∃ e, Program.parse text = .error e) ∧ ∃ e, Statement.parse text = .error e := by
  have inside : t.text ∈ textWords text := by
    rcases List.mem_append.mp mem with mem | mem
    · exact List.mem_map_of_mem mem
    · obtain rfl := List.mem_singleton.mp mem
      cases stray
  constructor
  · cases parsed : Program.parse text with
    | error e => exact ⟨e, rfl⟩
    | ok p =>
      obtain ⟨declarations, written, texts⟩ := Program.parse_ok_iff.mp parsed
      exact absurd (texts ▸ inside) (not_mem_programWords_of_error written stray)
  · cases parsed : Statement.parse text with
    | error e => exact ⟨e, rfl⟩
    | ok b =>
      obtain ⟨block, texts⟩ := Statement.parse_ok_iff.mp parsed
      exact absurd (texts ▸ inside) (not_mem_words_of_error block stray)

namespace CommandLine

/-! ## Lines and cells -/

/-- What the listing says about a token. -/
structure Row where
  line : Nat
  column : Nat
  kind : TokenClass
  text : String
deriving Repr, DecidableEq

/-- The text stands in one cell of a line. -/
def OneCell (text : String) : Prop := '\t' ∉ text.toList ∧ '\n' ∉ text.toList

instance (text : String) : Decidable (OneCell text) := inferInstanceAs (Decidable (_ ∧ _))

namespace Row

def ofToken? (t : Token) : Option Row :=
  t.span.map fun s => ⟨s.line, s.column, classify t.text, t.text⟩

def place (r : Row) : String := s!"{r.line}:{r.column}"

def cells (r : Row) : List String := [r.place, r.kind.display, r.text]

def display (r : Row) : String := s!"{r.place}\t{r.kind.display}\t{r.text}\n"

end Row

def listing (rows : List Row) : String := String.join (rows.map Row.display)

/-- The cells of a listing: each line ends in a newline, and its cells are parted by tabs. -/
def cellsOf (listing : String) : List (List String) :=
  (listing.toList.splitOn '\n').dropLast.map fun line => (line.splitOn '\t').map String.ofList

variable {r r' : Row} {rows others : List Row} {path : String}

@[simp] theorem oneCell_append {s t : String} : OneCell (s ++ t) ↔ OneCell s ∧ OneCell t := by
  simp only [OneCell, String.toList_append, List.mem_append, not_or]
  exact and_and_and_comm

theorem oneCell_repr (n : Nat) : OneCell n.repr := by
  constructor <;> intro mem <;> simpa using Json.isDigit_of_mem_repr mem

theorem Row.toList_place (r : Row) :
    r.place.toList = r.line.repr.toList ++ ':' :: r.column.repr.toList := by
  simp [place, toString]

theorem Row.oneCell_place (r : Row) : OneCell r.place := by
  have line := oneCell_repr r.line
  have column := oneCell_repr r.column
  simp only [OneCell, toList_place, List.mem_append, List.mem_cons, not_or]
  exact ⟨⟨line.1, by decide, column.1⟩, line.2, by decide, column.2⟩

theorem oneCell_display (kind : TokenClass) : OneCell kind.display := by cases kind <;> decide

def Row.chars (r : Row) : List Char :=
  r.place.toList ++ '\t' :: (r.kind.display.toList ++ '\t' :: r.text.toList)

theorem toList_listing (r : Row) (rows : List Row) :
    (listing (r :: rows)).toList = r.chars ++ '\n' :: (listing rows).toList := by
  simp [listing, String.join_cons, Row.display, Row.chars, toString]

theorem Row.newline_not_mem_chars (single : OneCell r.text) : '\n' ∉ r.chars := by
  simp [chars, r.oneCell_place.2, (oneCell_display r.kind).2, single.2]

theorem Row.splitOn_chars (single : OneCell r.text) :
    r.chars.splitOn '\t' = r.cells.map String.toList := by
  rw [chars, List.splitOn_append_cons_self, List.splitOn_append_cons_self,
    List.splitOn_eq_singleton r.oneCell_place.1,
    List.splitOn_eq_singleton (oneCell_display r.kind).1, List.splitOn_eq_singleton single.1]
  rfl

theorem splitOn_listing (single : ∀ r ∈ rows, OneCell r.text) :
    (listing rows).toList.splitOn '\n' = rows.map Row.chars ++ [[]] := by
  induction rows with
  | nil => rfl
  | cons r rows ih =>
    obtain ⟨first, single⟩ := List.forall_mem_cons.mp single
    rw [toList_listing, List.splitOn_append_cons_self,
      List.splitOn_eq_singleton (Row.newline_not_mem_chars first), ih single]
    rfl

theorem cellsOf_listing (single : ∀ r ∈ rows, OneCell r.text) :
    cellsOf (listing rows) = rows.map Row.cells := by
  rw [cellsOf, splitOn_listing single, List.dropLast_concat, List.map_map]
  refine List.map_congr_left fun r mem => ?_
  simp [Row.splitOn_chars (single r mem), Function.comp_def]

theorem Row.cells_injective (same : r.cells = r'.cells) : r = r' := by
  obtain ⟨line, column, kind, text⟩ := r
  obtain ⟨line', column', kind', text'⟩ := r'
  simp only [cells, List.cons.injEq, and_true] at same
  obtain ⟨place, display, rfl⟩ := same
  obtain rfl := TokenClass.display_injective display
  -- The number of the line goes up to the first character that is no digit, the colon.
  have digits := congrArg String.toList place
  simp only [toList_place] at digits
  have colon {cs : List Char} : Json.NoDigit (':' :: cs) := Json.noDigit_cons.mpr rfl
  obtain ⟨rfl, after⟩ := Json.repr_append_inj colon colon digits
  have noMore : Json.NoDigit [] := by simp [Json.NoDigit]
  have columns : column.repr.toList ++ [] = column'.repr.toList ++ [] := by simpa using after
  obtain ⟨rfl, -⟩ := Json.repr_append_inj noMore noMore columns
  rfl

theorem listing_injective (single : ∀ r ∈ rows, OneCell r.text)
    (single' : ∀ r ∈ others, OneCell r.text) (same : listing others = listing rows) :
    others = rows := by
  have cells : others.map Row.cells = rows.map Row.cells := by
    rw [← cellsOf_listing single', ← cellsOf_listing single, same]
  exact List.map_injective_iff.mpr (fun _ _ => Row.cells_injective) cells

/-! ## Listings of texts -/

theorem oneCell_of_mem_tokenize (mem : t ∈ (tokenize text).toList) : OneCell t.text := by
  have spaces := eq_space_of_isBlank mem
  constructor
  · intro tab
    exact absurd (spaces _ tab (by decide)) (by decide)
  · intro newline
    exact absurd (spaces _ newline (by decide)) (by decide)

theorem exists_row (mem : t ∈ (tokenize text).toList) :
    ∃ r, Row.ofToken? t = some r ∧ tokenLine t = r.display ∧ r.kind = classify t.text ∧
      r.text = t.text := by
  obtain ⟨s, span, -⟩ := countedIn_of_mem_tokenize mem
  refine ⟨⟨s.line, s.column, classify t.text, t.text⟩, by simp [Row.ofToken?, span], ?_, rfl, rfl⟩
  simp [tokenLine, span, Row.display, Row.place, Span.display]

theorem exists_rows (text : String) {ts : List Token}
    (inside : ∀ t ∈ ts, t ∈ (tokenize text).toList) :
    ∃ rows, ts.map Row.ofToken? = rows.map some ∧
      String.join (ts.map tokenLine) = listing rows ∧
      rows.map (fun r => (r.kind, r.text)) = ts.map fun t => (classify t.text, t.text) := by
  induction ts with
  | nil => exact ⟨[], rfl, rfl, rfl⟩
  | cons t ts ih =>
    obtain ⟨here, inside⟩ := List.forall_mem_cons.mp inside
    obtain ⟨r, row, line, kind, text⟩ := exists_row here
    obtain ⟨rows, each, lines, words⟩ := ih inside
    refine ⟨r :: rows, by simp [row, each], ?_, by simp [kind, text, words]⟩
    rw [List.map_cons, String.join_cons, line, lines, listing, listing, List.map_cons,
      String.join_cons]

/-- The output has a line for each of the tokens, in their order, of which the last one only is the end
of the input. Its lines part into the cells, and it is the listing of no other rows. -/
structure Lists (stdout : String) (tokens : List Token) (rows : List Row) : Prop where
  each : tokens.map Row.ofToken? = rows.map some
  lines : stdout = listing rows
  cells : cellsOf stdout = rows.map Row.cells
  unique : ∀ others, (∀ r ∈ others, OneCell r.text) → stdout = listing others → others = rows
  closed : ∃ before last, rows = before ++ [last] ∧ last.kind = .endOfInput ∧
    ∀ r ∈ before, r.kind ≠ .endOfInput

theorem closed_of_words
    (words : rows.map (fun r => (r.kind, r.text)) =
      (tokenize text).toList.map fun t => (classify t.text, t.text)) :
    ∃ before last, rows = before ++ [last] ∧ last.kind = .endOfInput ∧
      ∀ r ∈ before, r.kind ≠ .endOfInput := by
  rw [TokenQueue.toList, List.map_append, List.map_eq_append_iff] at words
  obtain ⟨before, closing, rfl, front, back⟩ := words
  obtain ⟨last, rfl, isLast⟩ := List.map_eq_singleton_iff.mp back
  refine ⟨before, last, rfl, (Prod.mk.inj isLast).1, fun r mem => ?_⟩
  have word := List.mem_map_of_mem (f := fun r : Row => (r.kind, r.text)) mem
  rw [front] at word
  obtain ⟨t, inside, same⟩ := List.mem_map.mp word
  rw [← (Prod.mk.inj same).1, ne_eq, classify_eq_iff]
  exact Token.isEnd_eq_false.mp (isEnd_of_mem_tokenize t inside)

theorem lists_tokens (text : String) :
    ∃ rows, Lists (String.join ((tokenize text).toList.map tokenLine)) (tokenize text).toList
      rows := by
  obtain ⟨rows, each, lines, words⟩ := exists_rows text fun _ mem => mem
  have single : ∀ r ∈ rows, OneCell r.text := by
    intro r mem
    have word := List.mem_map_of_mem (f := fun r => (r.kind, r.text)) mem
    rw [words] at word
    obtain ⟨t, inside, same⟩ := List.mem_map.mp word
    exact (Prod.mk.inj same).2 ▸ oneCell_of_mem_tokenize inside
  refine ⟨rows, each, lines, lines ▸ cellsOf_listing single, fun others single' same => ?_, ?_⟩
  · exact listing_injective single single' (same.symm.trans lines)
  · exact closed_of_words words

theorem refuses_of_stray {action : Action} (file : action.file? = some path)
    (parses : action ≠ .tokens path)
    (stray : ∃ t ∈ (tokenize text).toList, classify t.text = .error) :
    ∃ e, action.Refuses text e := by
  obtain ⟨t, mem, stray⟩ := stray
  obtain ⟨noProgram, noBlock⟩ := refuses_of_error mem stray
  cases action with
  | check | parse | format | hash => exact noProgram
  | statement => exact noBlock
  | tokens other =>
    cases file
    exact absurd rfl parses
  | version => cases file

/-- Every word is of one class. Of a file that holds a text, the tokens are listed on a line each, and
their listing can be read back in one way only, since no token holds a tab or begins another line.
Listed as of no class are single characters that no word has, and runs of word characters that begin
with a digit or a hyphen, and a file that has one of these is accepted by no command that parses it. -/
theorem tokens_listed {d : Directory} (there : d.read path = .ok text) :
    (∀ word kind, classify word = kind ↔ kind.Holds word) ∧
    (∀ word (k l : TokenClass), k.Holds word → l.Holds word → k = l) ∧
    (∀ t ∈ (tokenize text).toList, OneCell t.text ∧
      (∀ c ∈ t.text.toList, Text.isBlank c = true → c = ' ') ∧
      (classify t.text = .error ↔ IsStray t.text)) ∧
    (∀ arguments i, Request.ofArguments arguments = .run i → i.action = .tokens path →
      ∃ o rows, respond d.read arguments = .outcome o ∧ o.code = 0 ∧ o.stderr = "" ∧
        Lists o.stdout (tokenize text).toList rows) ∧
    ((∃ t ∈ (tokenize text).toList, classify t.text = .error) →
      ∀ arguments i, Request.ofArguments arguments = .run i → i.action.file? = some path →
        i.action ≠ .tokens path →
          ∃ o e, respond d.read arguments = .outcome o ∧ o.code = 1 ∧ i.action.Refuses text e) := by
  refine ⟨fun word kind => classify_eq_iff, fun word k l isK isL => ?_, fun t mem => ?_,
    fun arguments i accepted lists => ?_, fun stray arguments i accepted file parses => ?_⟩
  · rw [← classify_of_holds isK, classify_of_holds isL]
  · exact ⟨oneCell_of_mem_tokenize mem, eq_space_of_isBlank mem, classify_of_mem_tokenize mem⟩
  · obtain ⟨rows, lists'⟩ := lists_tokens text
    have file : i.action.file? = some path := by rw [lists]; rfl
    have answer := invocation_readable file there
    rw [lists] at answer
    have stdout : (i.execute d.read).stdout = String.join ((tokenize text).toList.map tokenLine) :=
      congrArg Outcome.stdout answer
    refine ⟨_, rows, respond_run accepted _, congrArg Outcome.code answer,
      congrArg Outcome.stderr answer, ?_⟩
    rwa [stdout]
  · obtain ⟨e, refused⟩ := refuses_of_stray file parses stray
    refine ⟨_, e, respond_run accepted _, ?_, refused⟩
    exact (invocation_ends file).exact.refused.mpr ⟨text, e, there, refused⟩

/-- A keyword, a run that begins with a digit, and a symbol, in a file that is refused for the last
two of them. -/
theorem tokens_listed_strays :
    ∃ d : Directory, d.read "p.bl" = .ok "IF\n 1a?" ∧
      (∃ o, respond d.read ["tokens", "p.bl"] = .outcome o ∧ o.code = 0 ∧
        cellsOf o.stdout = [["1:1", "KEYWORD", "IF"], ["2:2", "ERROR", "1a"], ["2:4", "ERROR", "?"],
          ["2:5", "END_OF_INPUT", endOfInput]]) ∧
      ∃ o, respond d.read ["hash", "p.bl"] = .outcome o ∧ o.code = 1 := by
  let d : Directory := ⟨[("p.bl", .file (Text.encode "IF\n 1a?"))]⟩
  have there : d.read "p.bl" = .ok "IF\n 1a?" := Directory.read_of_isName (by decide +kernel) rfl
  have lists : Request.ofArguments ["tokens", "p.bl"] = .run ⟨.tokens "p.bl", false, false⟩ := by
    decide +kernel
  have hashes : Request.ofArguments ["hash", "p.bl"] = .run ⟨.hash "p.bl", false, false⟩ := by
    decide +kernel
  obtain ⟨-, -, -, listed, refused⟩ := tokens_listed there
  obtain ⟨o, rows, answered, code, -, lists⟩ := listed _ _ lists rfl
  obtain ⟨o', -, answered', code', -⟩ :=
    refused ⟨⟨"1a", some ⟨2, 2, 4⟩⟩, by decide +kernel, by decide +kernel⟩ _ _ hashes rfl nofun
  refine ⟨d, there, ⟨o, answered, code, ?_⟩, o', answered', code'⟩
  have said : (tokenize "IF\n 1a?").toList.map Row.ofToken? = List.map some
      [⟨1, 1, .keyword, "IF"⟩, ⟨2, 2, .error, "1a"⟩, ⟨2, 4, .error, "?"⟩,
        ⟨2, 5, .endOfInput, endOfInput⟩] := by
    decide +kernel
  have rows := List.map_injective_iff.mpr (fun _ _ => Option.some.inj) (lists.each.symm.trans said)
  rw [lists.cells, rows]
  decide +kernel

end CommandLine

end RobotLang
