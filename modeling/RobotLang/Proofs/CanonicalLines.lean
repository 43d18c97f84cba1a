import RobotLang.Proofs.RoundTrip

/-!
The lines of canonical text. Each line belongs to one statement, which is told by the path that leads
to it, and stands two spaces further in for every IF and WHILE around that statement
(`text_eq_lines`, `owner_of_mem_lines`). What a line holds behind its spaces is not empty and neither
begins nor ends in a space (`stands_of_mem_lines`).

Main statement: this is so for all that commands come to, however deep it is nested
(`Workbench.Reachable.laid_out`).
-/

namespace RobotLang

open RobotLang.Parser Statement

/-! ## Lines of texts -/

namespace Text

/-- The characters of lines, each of which is ended by a newline. -/
def unlines (lines : List (List Char)) : List Char := lines.flatMap (· ++ ['\n'])

/-- How many spaces a line begins with. -/
def indentation (line : List Char) : Nat := (line.takeWhile (· = ' ')).length

/-- Insert spaces in front of every line; the flag tells whether one begins here. -/
def indentChars (n : Nat) : Bool → List Char → List Char
  | _, [] => []
  | begins, c :: cs =>
    (if begins then List.replicate n ' ' else []) ++ c :: indentChars n (c = '\n') cs

/-- The text with spaces inserted at the start of every line. -/
def indented (n : Nat) (text : String) : String := String.ofList (indentChars n true text.toList)

theorem indentChars_line {n : Nat} {line : List Char} (oneLine : '\n' ∉ line) (begins : Bool)
    (rest : List Char) :
    indentChars n begins (line ++ '\n' :: rest) =
      (if begins then List.replicate n ' ' else []) ++ line ++ '\n' :: indentChars n true rest := by
  induction line generalizing begins with
  | nil => simp [indentChars]
  | cons c cs ih =>
    obtain ⟨other, oneLine⟩ := List.ne_and_not_mem_of_not_mem_cons oneLine
    have goesOn : decide (c = '\n') = false := decide_eq_false other.symm
    rw [List.cons_append, indentChars, goesOn, ih oneLine]
    simp

theorem indentChars_unlines (n : Nat) {lines : List (List Char)}
    (oneLine : ∀ line ∈ lines, '\n' ∉ line) :
    indentChars n true (unlines lines) = unlines (lines.map (List.replicate n ' ' ++ ·)) := by
  induction lines with
  | nil => rfl
  | cons line lines ih =>
    obtain ⟨first, after⟩ := List.forall_mem_cons.mp oneLine
    have ih := ih after
    simp only [unlines, List.flatMap_cons, List.map_cons, List.append_assoc,
      List.singleton_append] at ih ⊢
    rw [indentChars_line first, ih]
    simp

end Text

/-! ## The lines of statements -/

/-- A line of a statement's text: the statement below that it belongs to, at the end of a path of
child numbers, and what it holds behind its spaces. -/
structure Layout.Line where
  owner : List Nat
  text : String
deriving Repr, DecidableEq

/-- The line, seen from a statement that has the old one as its child of this number. -/
def Layout.Line.below (i : Nat) (l : Line) : Line := { l with owner := i :: l.owner }

/-- What the lines of a statement itself hold, those of the statements below it apart. -/
def Label.lineTexts : Label → List String
  | block => []
  | ifThen c => [s!"IF {c.spelling} THEN", "END IF"]
  | ifElse c => [s!"IF {c.spelling} THEN", "ELSE", "END IF"]
  | whileDo c => [s!"WHILE {c.spelling} DO", "END WHILE"]
  | call instruction => [instruction]

/-- Whether statements of this kind stand around others, as IF and WHILE do. -/
def Kind.encloses : Kind → Bool
  | ifThen => true
  | ifElse => true
  | whileDo => true
  | block => false
  | call => false

namespace Statement

/-- The number of IF and WHILE statements that a path of child numbers passes through before it comes
to its end. -/
def enclosing : Statement → List Nat → Nat
  | _, [] => 0
  | s, i :: path =>
    s.kind.encloses.toNat + ((s.children[i]?).map fun child => child.enclosing path).getD 0

mutual

/-- The lines of the text of a statement, in order. -/
def lines : Statement → List Layout.Line
  | node .block children => linesFrom 0 children
  | node (.ifThen c) children =>
    ⟨[], s!"IF {c.spelling} THEN"⟩ :: linesFrom 0 children ++ [⟨[], "END IF"⟩]
  | node (.ifElse c) (yes :: no) =>
    ⟨[], s!"IF {c.spelling} THEN"⟩ :: yes.lines.map (·.below 0) ++
      ⟨[], "ELSE"⟩ :: linesFrom 1 no ++ [⟨[], "END IF"⟩]
  | node (.ifElse c) [] => [⟨[], s!"IF {c.spelling} THEN"⟩, ⟨[], "ELSE"⟩, ⟨[], "END IF"⟩]
  | node (.whileDo c) children =>
    ⟨[], s!"WHILE {c.spelling} DO"⟩ :: linesFrom 0 children ++ [⟨[], "END WHILE"⟩]
  | node (.call instruction) _ => [⟨[], instruction⟩]

/-- The lines of children that are numbered from here on. -/
def linesFrom (i : Nat) : List Statement → List Layout.Line
  | [] => []
  | s :: ss => s.lines.map (·.below i) ++ linesFrom (i + 1) ss

end

end Statement

/-- The line as it stands in the text of a statement, all of it indented by a number of spaces. -/
def Layout.Line.written (l : Line) (s : Statement) (n : Nat) : List Char :=
  List.replicate (n + 2 * s.enclosing l.owner) ' ' ++ l.text.toList

namespace Statement

/-! ## Owners of lines -/

theorem mem_lines {label : Label} {children : List Statement} {l : Layout.Line}
    (mem : l ∈ (node label children).lines) :
    (l.owner = [] ∧ l.text ∈ label.lineTexts) ∨ l ∈ linesFrom 0 children := by
  cases label with
  | block => exact .inr mem
  | ifThen c | whileDo c =>
    simp only [lines, List.cons_append, List.mem_cons, List.mem_append, List.not_mem_nil,
      or_false] at mem
    rcases mem with rfl | inside | rfl
    · exact .inl ⟨rfl, by simp [Label.lineTexts]⟩
    · exact .inr inside
    · exact .inl ⟨rfl, by simp [Label.lineTexts]⟩
  | ifElse c =>
    cases children with
    | nil =>
      simp only [lines, List.mem_cons, List.not_mem_nil, or_false] at mem
      rcases mem with rfl | rfl | rfl <;> exact .inl ⟨rfl, by simp [Label.lineTexts]⟩
    | cons yes no =>
      simp only [lines, List.cons_append, List.mem_cons, List.mem_append, List.not_mem_nil,
        or_false] at mem
      rw [linesFrom, List.mem_append]
      rcases mem with rfl | (inside | rfl | inside) | rfl
      · exact .inl ⟨rfl, by simp [Label.lineTexts]⟩
      · exact .inr (.inl inside)
      · exact .inl ⟨rfl, by simp [Label.lineTexts]⟩
      · exact .inr (.inr inside)
      · exact .inl ⟨rfl, by simp [Label.lineTexts]⟩
  | call instruction =>
    cases List.mem_singleton.mp mem
    exact .inl ⟨rfl, by simp [Label.lineTexts]⟩

mutual

/-- A line belongs to a statement below, and is one of the lines of that statement. -/
theorem owner_of_mem_lines : ∀ {s : Statement} {l : Layout.Line}, l ∈ s.lines →
    ∃ t, s.descendant? l.owner = some t ∧ l.text ∈ t.label.lineTexts
  | node label children, l, mem => by
    rcases mem_lines mem with ⟨own, text⟩ | below
    · exact ⟨node label children, by rw [own]; rfl, text⟩
    · exact owner_of_mem_linesFrom (by rfl) below

theorem owner_of_mem_linesFrom : ∀ {s : Statement} {i : Nat} {ss : List Statement}
    {l : Layout.Line}, s.children.drop i = ss → l ∈ linesFrom i ss →
    ∃ t, s.descendant? l.owner = some t ∧ l.text ∈ t.label.lineTexts
  | _, _, [], _, _, mem => by simp [linesFrom] at mem
  | s, i, child :: ss, l, split, mem => by
    rw [linesFrom, List.mem_append, List.mem_map] at mem
    rcases mem with ⟨inner, inside, rfl⟩ | behind
    · obtain ⟨t, located, text⟩ := owner_of_mem_lines inside
      have isChild : s.children[i]? = some child := by
        rw [← List.head?_drop, split, List.head?_cons]
      exact ⟨t, by simp [Layout.Line.below, descendant?, isChild, located], text⟩
    · refine owner_of_mem_linesFrom ?_ behind
      rw [← List.tail_drop, split, List.tail_cons]

end

/-! ## Levels of lines -/

/-- A line of a statement without its owner: how many IF and WHILE statements stand around that, and
what the line holds. -/
def level (s : Statement) (l : Layout.Line) : Nat × String := (s.enclosing l.owner, l.text)

def levels (s : Statement) : List (Nat × String) := s.lines.map s.level

/-- Inside so many more statements. -/
def deeper (n : Nat) (line : Nat × String) : Nat × String := (n + line.1, line.2)

theorem levels_below {s child : Statement} {i : Nat} (isChild : s.children[i]? = some child) :
    (child.lines.map (·.below i)).map s.level = child.levels.map (deeper s.kind.encloses.toNat) := by
  simp [levels, level, Layout.Line.below, enclosing, isChild, deeper]

theorem levels_from {s : Statement} {i : Nat} {ss : List Statement} (split : s.children.drop i = ss) :
    (linesFrom i ss).map s.level = (ss.flatMap levels).map (deeper s.kind.encloses.toNat) := by
  induction ss generalizing i with
  | nil => rfl
  | cons child ss ih =>
    have isChild : s.children[i]? = some child := by
      rw [← List.head?_drop, split, List.head?_cons]
    have behind : s.children.drop (i + 1) = ss := by rw [← List.tail_drop, split, List.tail_cons]
    rw [linesFrom, List.map_append, levels_below isChild, ih behind, List.flatMap_cons,
      List.map_append]

theorem levels_last {s : Statement} {i : Nat} {body : List Statement}
    (split : s.children.drop i = [block body]) (levelled : (block body).levels = body.flatMap levels) :
    (linesFrom i [block body]).map s.level =
      (body.flatMap levels).map (deeper s.kind.encloses.toNat) := by
  rw [levels_from split, List.flatMap_singleton, levelled]

theorem levels_block (body : List Statement) : (block body).levels = body.flatMap levels := by
  have inside : (block body).levels = (body.flatMap levels).map (deeper 0) := levels_from rfl
  have here : deeper 0 = id := by
    funext line
    exact Prod.ext (Nat.zero_add line.1) rfl
  rw [inside, here, List.map_id]

theorem levels_call (instruction : String) : (call instruction).levels = [(0, instruction)] := by
  simp [levels, call, lines, level, enclosing]

theorem levels_ifThen (c : Condition) (body : List Statement) :
    (node (.ifThen c) [block body]).levels =
      (0, s!"IF {c.spelling} THEN") :: (body.flatMap levels).map (deeper 1) ++
        [(0, "END IF")] := by
  have inside : (linesFrom 0 [block body]).map (node (.ifThen c) [block body]).level = _ :=
    levels_last rfl (levels_block body)
  simp only [levels, lines, List.map_cons, List.map_append, inside]
  rfl

theorem levels_ifElse (c : Condition) (yes no : List Statement) :
    (node (.ifElse c) [block yes, block no]).levels =
      (0, s!"IF {c.spelling} THEN") :: (yes.flatMap levels).map (deeper 1) ++
        (0, "ELSE") :: (no.flatMap levels).map (deeper 1) ++ [(0, "END IF")] := by
  have first : ((block yes).lines.map (·.below 0)).map
      (node (.ifElse c) [block yes, block no]).level = _ := levels_below rfl
  have second : (linesFrom 1 [block no]).map (node (.ifElse c) [block yes, block no]).level = _ :=
    levels_last rfl (levels_block no)
  rw [levels_block] at first
  simp only [levels, lines, List.map_cons, List.map_append, first, second]
  rfl

theorem levels_whileDo (c : Condition) (body : List Statement) :
    (node (.whileDo c) [block body]).levels =
      (0, s!"WHILE {c.spelling} DO") :: (body.flatMap levels).map (deeper 1) ++
        [(0, "END WHILE")] := by
  have inside : (linesFrom 0 [block body]).map (node (.whileDo c) [block body]).level = _ :=
    levels_last rfl (levels_block body)
  simp only [levels, lines, List.map_cons, List.map_append, inside]
  rfl

end Statement

/-! ## The lines that are written -/

namespace Layout

/-- A line that stands inside so many IF and WHILE statements, with all of them indented by a number
of spaces. -/
def lineChars (indent : Nat) (line : Nat × String) : List Char :=
  List.replicate (indent + 2 * line.1) ' ' ++ line.2.toList

theorem lineChars_deeper (indent : Nat) (line : Nat × String) :
    lineChars indent (deeper 1 line) = lineChars (indent + indentWidth) line := by
  have same : indent + 2 * (1 + line.1) = indent + indentWidth + 2 * line.1 := by
    rw [indentWidth]
    omega
  rw [lineChars, deeper, same, lineChars]

/-- What the lines come to that are added to a text. -/
def Adds (indent : Nat) (lines : List (Nat × String)) (write : String → String) : Prop :=
  ∀ out, (write out).toList = out.toList ++ Text.unlines (lines.map (lineChars indent))

variable {indent : Nat} {f g : String → String} {ls ms : List (Nat × String)}

theorem Adds.nothing : Adds indent [] (fun out => out) := fun out => by simp [Text.unlines]

theorem Adds.line (text : String) : Adds indent [(0, text)] (writeLine indent text) := fun out => by
  simp [Text.unlines, lineChars, writeLine, spaces]

theorem Adds.comp (after : Adds indent ms g) (first : Adds indent ls f) :
    Adds indent (ls ++ ms) (fun out => g (f out)) := fun out => by
  rw [after, first, List.map_append]
  simp [Text.unlines]

theorem Adds.inside (inner : Adds (indent + indentWidth) ls f) :
    Adds indent (ls.map (deeper 1)) f := fun out => by
  rw [inner, List.map_map]
  simp only [Function.comp_def, lineChars_deeper]

theorem adds_body {body : List Statement} (shaped : Body body) (indent : Nat) :
    Adds indent (body.flatMap levels) (fun out => writeAll indent out body) := by
  induction shaped generalizing indent with
  | nil => exact .nothing
  | @call instruction rest _ _ ih =>
    have whole := (ih indent).comp (.line instruction)
    rw [List.flatMap_cons, levels_call]
    exact whole
  | @ifThen c body rest _ _ inside ih =>
    have block := (inside (indent + indentWidth)).inside.comp (.line s!"IF {c.spelling} THEN")
    have whole := (ih indent).comp ((Adds.line "END IF").comp block)
    rw [List.flatMap_cons, levels_ifThen]
    exact whole
  | @ifElse c yes no rest _ _ _ insideYes insideNo ih =>
    have first := (insideYes (indent + indentWidth)).inside.comp (.line s!"IF {c.spelling} THEN")
    have second := (insideNo (indent + indentWidth)).inside.comp ((Adds.line "ELSE").comp first)
    have whole := (ih indent).comp ((Adds.line "END IF").comp second)
    rw [List.flatMap_cons, levels_ifElse]
    simp only [List.append_assoc, List.cons_append, List.nil_append] at whole ⊢
    exact whole
  | @whileDo c body rest _ _ inside ih =>
    have block := (inside (indent + indentWidth)).inside.comp (.line s!"WHILE {c.spelling} DO")
    have whole := (ih indent).comp ((Adds.line "END WHILE").comp block)
    rw [List.flatMap_cons, levels_whileDo]
    exact whole

theorem adds_statement {s : Statement} (shaped : s.WellShaped) (indent : Nat) :
    Adds indent s.levels (fun out => write indent out s) := by
  by_cases isBlock : s.kind = .block
  · rw [eq_block_of_kind isBlock] at shaped ⊢
    rw [levels_block]
    exact adds_body (wellShaped_block_iff.mp shaped) indent
  · have item : Body [s] := body_of_items [s] (by simpa using ⟨isBlock, shaped⟩)
    simpa [writeAll] using adds_body item indent

/-! ## What lines hold -/

/-- Words with a space between any two begin and end in word characters. -/
theorem spaced_ends {words : List String} (nonempty : words ≠ [])
    (inside : ∀ word ∈ words, InWordChars word) :
    (∃ c, (spaced words).toList.head? = some c ∧ isWordChar c = true) ∧
      ∃ c, (spaced words).toList.getLast? = some c ∧ isWordChar c = true := by
  induction words with
  | nil => exact absurd rfl nonempty
  | cons word words ih =>
    obtain ⟨⟨some, chars⟩, after⟩ := List.forall_mem_cons.mp inside
    rw [List.all_eq_true] at chars
    have first := chars _ (List.head_mem some)
    cases words with
    | nil => exact ⟨⟨_, List.head?_eq_some_head some, first⟩,
        _, List.getLast?_eq_some_getLast some, chars _ (List.getLast_mem some)⟩
    | cons second rest =>
      obtain ⟨-, c, ended, last⟩ := ih (by simp) after
      refine ⟨⟨word.toList.head some, ?_, first⟩, c, ?_, last⟩
      · simp [spaced, List.head?_append, List.head?_eq_some_head some]
      · simp [spaced, List.getLast?_append, List.getLast?_cons, ended]

theorem newline_not_mem_spaced {words : List String} (inside : ∀ word ∈ words, InWordChars word) :
    '\n' ∉ (spaced words).toList := by
  have other {word : String} (h : InWordChars word) : '\n' ∉ word.toList := fun mem =>
    absurd (List.all_eq_true.mp h.2 _ mem) (by decide)
  induction words with
  | nil => simp [spaced]
  | cons word words ih =>
    obtain ⟨first, after⟩ := List.forall_mem_cons.mp inside
    cases words with
    | nil => exact other first
    | cons second rest => simp [spaced, other first, ih after]

/-- A text of some words with a space between any two. -/
def InWords (text : String) : Prop :=
  ∃ words, words ≠ [] ∧ text = spaced words ∧ ∀ word ∈ words, InWordChars word

theorem inWords_of_mem_lineTexts {s : Statement} {text : String} (shaped : s.WellShaped)
    (mem : text ∈ s.label.lineTexts) : InWords text := by
  have ifLine (c : Condition) : InWords s!"IF {c.spelling} THEN" :=
    ⟨_, by simp, ifLine_eq c, by simp [inWordChars_keyword, inWordChars_spelling]⟩
  have elseLine : InWords "ELSE" := ⟨[Keyword.else.text], by simp, rfl, by simp [inWordChars_keyword]⟩
  have endIfLine : InWords "END IF" := ⟨_, by simp, endIfLine_eq, by simp [inWordChars_keyword]⟩
  have whileLine (c : Condition) : InWords s!"WHILE {c.spelling} DO" :=
    ⟨_, by simp, whileLine_eq c, by simp [inWordChars_keyword, inWordChars_spelling]⟩
  have endWhileLine : InWords "END WHILE" :=
    ⟨_, by simp, endWhileLine_eq, by simp [inWordChars_keyword]⟩
  have row := shaped.row
  obtain ⟨label, children⟩ := s
  cases label <;> simp only [label, Label.lineTexts, List.mem_cons, List.not_mem_nil, or_false] at mem
  case ifThen c =>
    rcases mem with rfl | rfl
    · exact ifLine c
    · exact endIfLine
  case ifElse c =>
    rcases mem with rfl | rfl | rfl
    · exact ifLine c
    · exact elseLine
    · exact endIfLine
  case whileDo c =>
    rcases mem with rfl | rfl
    · exact whileLine c
    · exact endWhileLine
  case call instruction =>
    subst mem
    exact ⟨[text], by simp, rfl, by simpa using inWordChars_identifier row.2⟩

/-- How a line stands in the text of a statement that is indented by a number of spaces. -/
structure Line.Stands (l : Line) (s : Statement) (n : Nat) : Prop where
  nonempty : l.written s n ≠ []
  oneLine : '\n' ∉ l.written s n
  noTrailing : (l.written s n).getLast? ≠ some ' '
  indented : Text.indentation (l.written s n) = n + 2 * s.enclosing l.owner
  owned : ∃ t, s.descendant? l.owner = some t ∧ l.text ∈ t.label.lineTexts

theorem stands_of_mem_lines {s : Statement} {l : Line} (shaped : s.WellShaped) (mem : l ∈ s.lines)
    (n : Nat) : l.Stands s n := by
  obtain ⟨t, located, own⟩ := owner_of_mem_lines mem
  obtain ⟨words, some, spelled, inside⟩ := inWords_of_mem_lineTexts (shaped.descendant located) own
  obtain ⟨⟨c, begins, first⟩, d, ends, last⟩ := spaced_ends some inside
  have oneLine := newline_not_mem_spaced inside
  rw [← spelled] at begins ends oneLine
  obtain ⟨cs, begins⟩ := List.head?_eq_some_iff.mp begins
  have notSpace {e : Char} (isWord : isWordChar e = true) : e ≠ ' ' := by
    rintro rfl
    exact absurd isWord (by decide)
  refine ⟨by simp [Line.written, begins], by simp [Line.written, oneLine], ?_, ?_, t, located, own⟩
  · simpa [Line.written, List.getLast?_append, ends] using notSpace last
  · simp [Text.indentation, Line.written, begins, notSpace first]

/-! ## Texts of statements -/

theorem lines_eq_levels (s : Statement) (n : Nat) :
    s.lines.map (·.written s n) = s.levels.map (lineChars n) := by
  rw [levels, List.map_map]
  rfl

theorem text_eq_lines {s : Statement} (shaped : s.WellShaped) (n : Nat) :
    (s.text n).toList = Text.unlines (s.lines.map (·.written s n)) := by
  have added := adds_statement shaped n ""
  rwa [String.toList_empty, List.nil_append, ← lines_eq_levels] at added

/-- To indent a statement is to indent all lines of its text. -/
theorem text_eq_indented {s : Statement} (shaped : s.WellShaped) (n : Nat) :
    s.text n = Text.indented n (s.text 0) := by
  have oneLine : ∀ line ∈ s.lines.map (·.written s 0), '\n' ∉ line := by
    intro line mem
    obtain ⟨l, inside, rfl⟩ := List.mem_map.mp mem
    exact (stands_of_mem_lines shaped inside 0).oneLine
  have same : s.lines.map (·.written s n) =
      (s.lines.map (·.written s 0)).map (List.replicate n ' ' ++ ·) := by
    simp [Line.written, ← List.append_assoc, List.replicate_append_replicate]
  rw [← String.toList_inj, Text.indented, String.toList_ofList, text_eq_lines shaped,
    text_eq_lines shaped, Text.indentChars_unlines n oneLine, same]

theorem text_block_eq {body : List Statement} (shaped : (block body).WellShaped) (n : Nat) :
    (block body).text n = String.join (body.map (·.text n)) := by
  have each : body.map (·.text n) =
      body.map fun s => String.ofList (Text.unlines (s.levels.map (lineChars n))) := by
    refine List.map_congr_left fun s mem => ?_
    rw [← lines_eq_levels, ← text_eq_lines (shaped.child mem), String.ofList_toList]
  rw [← String.toList_inj, text_eq_lines shaped, lines_eq_levels, levels_block, each,
    String.toList_join, List.flatMap_map]
  simp only [Text.unlines, List.map_flatMap, List.flatMap_assoc, String.toList_ofList]

end Layout

/-! ## Main statement -/

namespace Workbench

/-- The text of whatever commands come to has one line for each line of a statement in it, two
spaces further in for every IF and WHILE around that statement. It is indented as a whole, blocks are
written statement by statement, and its tokens are the words of the statement or program. -/
theorem Reachable.laid_out {w : Workbench} (reached : w.Reachable) :
    (∀ s n, w.Holds s →
      s.text n = Text.indented n (s.text 0) ∧
      (s.text n).toList = Text.unlines (s.lines.map (·.written s n)) ∧
      (∀ l ∈ s.lines, l.Stands s n) ∧
      (s.kind = .block → s.text n = String.join (s.children.map (·.text n))) ∧
      (tokenize (s.text n)).texts = s.words ++ [endOfInput]) ∧
    ∀ name, (w.program name).context.names.Pairwise (· < ·) ∧
      (tokenize (w.program name).text).texts =
        programWords (w.program name).name (w.program name).context.entries (w.program name).body ++
          [endOfInput] := by
  refine ⟨fun s n held => ?_, fun name => ⟨(w.program name).context.names_ascending, ?_⟩⟩
  · have shaped := reached.holds held
    refine ⟨Layout.text_eq_indented shaped n, Layout.text_eq_lines shaped n,
      fun l mem => Layout.stands_of_mem_lines shaped mem n, fun isBlock => ?_,
      texts_statement shaped n⟩
    rw [eq_block_of_kind isBlock] at shaped ⊢
    exact Layout.text_block_eq shaped n
  · have written := (reached.sound.programs name).written
    exact texts_program written.named written.fit written.body

/-- A call inside an IF, written with two spaces in front of all lines, and a block that is nested
deeper than the parser allows. -/
theorem laid_out_enclosed :
    (empty.run enclosing).Reachable ∧
      ((empty.run enclosing).statement "outer").text 2 =
        Text.indented 2 (((empty.run enclosing).statement "outer").text 0) ∧
      (⟨[0, 0, 0], "move"⟩ : Layout.Line).Stands ((empty.run enclosing).statement "outer") 2 ∧
      ∃ w : Workbench, w.Reachable ∧ nestingLimit < (w.statement "b").depth ∧
        (w.statement "b").text 0 = String.join ((w.statement "b").children.map (·.text 0)) ∧
        (tokenize ((w.statement "b").text 0)).texts = (w.statement "b").words ++ [endOfInput] := by
  have reached := Reachable.empty.run enclosing
  obtain ⟨shifted, -, lines, -⟩ := reached.laid_out.1 _ 2 (.register "outer")
  obtain ⟨w, reachedDeep, isBlock, deep⟩ := exists_reachable_depth (nestingLimit + 1)
  obtain ⟨-, -, -, joined, texts⟩ := reachedDeep.laid_out.1 _ 0 (.register "b")
  refine ⟨reached, shifted, lines _ ?_, w, reachedDeep, ?_, joined isBlock, texts⟩
  · decide +kernel
  · rw [deep]
    exact Nat.lt_succ_self _

end Workbench

end RobotLang
