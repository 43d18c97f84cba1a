import RobotLang.Condition

/-!
Tokens: the words of a program with their place in the text, and the classes of words. A word belongs
to one class at most, and words that belong to none are kept and refused later, where a parser meets
them.
-/

namespace RobotLang

/-! ## Places and tokens -/

/-- A place in a text. Lines and columns count from one, the offset from zero; all count characters,
and only a newline starts a new line. -/
structure Span where
  line : Nat
  column : Nat
  offset : Nat
deriving Repr, DecidableEq

namespace Span

def start : Span := ⟨1, 1, 0⟩

def after (s : Span) (c : Char) : Span :=
  if c = '\n' then ⟨s.line + 1, 1, s.offset + 1⟩ else ⟨s.line, s.column + 1, s.offset + 1⟩

/-- The place as a reader counts it, line and column. -/
def display (s : Span) : String := s!"{s.line}:{s.column}"

end Span

/-- A word and where it begins, if the word comes from a text. -/
structure Token where
  text : String
  span : Option Span
deriving Repr, DecidableEq

/-- The word that stands for the end of the input. -/
def endOfInput : String := "### END OF INPUT ###"

def Token.isEnd (t : Token) : Bool := t.text == endOfInput

/-! ## Classes of words -/

inductive Keyword where
  | program
  | is
  | begin
  | «end»
  | instruction
  | «if»
  | «then»
  | «else»
  | «while»
  | «do»
deriving Repr, DecidableEq

namespace Keyword

def all : List Keyword :=
  [program, is, begin, «end», instruction, «if», «then», «else», «while», «do»]

/-- How the keyword is written; case matters. -/
def text : Keyword → String
  | program => "PROGRAM"
  | is => "IS"
  | begin => "BEGIN"
  | «end» => "END"
  | instruction => "INSTRUCTION"
  | «if» => "IF"
  | «then» => "THEN"
  | «else» => "ELSE"
  | «while» => "WHILE"
  | «do» => "DO"

end Keyword

def isKeyword (word : String) : Bool := Keyword.all.any fun k => k.text == word

/-- Only the canonical spelling of a condition is a condition word. -/
def isCondition (word : String) : Bool := (Condition.ofSpelling? word).isSome

/-- The characters of names and keywords: ASCII letters, ASCII digits and the hyphen. -/
def isWordChar (c : Char) : Bool := c.isAlphanum || c == '-'

/-- A letter followed by word characters. -/
def hasNameShape : List Char → Bool
  | [] => false
  | c :: cs => c.isAlpha && cs.all isWordChar

/-- The words that may name programs and instructions. -/
def isIdentifier (word : String) : Bool :=
  hasNameShape word.toList && !isKeyword word && !isCondition word

/-- The instructions that every robot knows. -/
def primitiveInstructions : List String := ["move", "turnleft", "turnright", "infect", "skip"]

def isPrimitive (word : String) : Bool := primitiveInstructions.contains word

inductive TokenClass where
  | keyword
  | identifier
  | condition
  | endOfInput
  | error
deriving Repr, DecidableEq

namespace TokenClass

def all : List TokenClass := [keyword, identifier, condition, endOfInput, error]

def display : TokenClass → String
  | keyword => "KEYWORD"
  | identifier => "IDENTIFIER"
  | condition => "CONDITION"
  | endOfInput => "END_OF_INPUT"
  | error => "ERROR"

/-- The name of the class in exchange with other tools. -/
def name : TokenClass → String
  | keyword => "Keyword"
  | identifier => "Identifier"
  | condition => "Condition"
  | endOfInput => "EndOfInput"
  | error => "Error"

end TokenClass

/-- The class of a word; `error` for the words of no class. -/
def classify (word : String) : TokenClass :=
  if word = endOfInput then .endOfInput
  else if isKeyword word then .keyword
  else if isCondition word then .condition
  else if isIdentifier word then .identifier
  else .error

theorem isKeyword_iff {word : String} : isKeyword word = true ↔ ∃ k : Keyword, k.text = word := by
  simp only [isKeyword, List.any_eq_true, beq_iff_eq]
  exact ⟨fun ⟨k, _, hk⟩ => ⟨k, hk⟩, fun ⟨k, hk⟩ => ⟨k, by cases k <;> decide, hk⟩⟩

theorem isCondition_iff {word : String} :
    isCondition word = true ↔ ∃ c : Condition, word = c.spelling := by
  simp only [isCondition, Option.isSome_iff_exists, Condition.ofSpelling?_eq_some_iff]

theorem not_isIdentifier_endOfInput : isIdentifier endOfInput = false := by decide +kernel

end RobotLang
