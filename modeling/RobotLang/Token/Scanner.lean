import RobotLang.Text.Blank
import RobotLang.Token.Queue

/-!
Scanning a text into tokens. A token is a maximal run of word characters, or a single character that
is neither a word character nor white space nor the start of a comment. A comment runs from `#` up to
the end of its line. Scanning never fails.

The scanner reads one character at a time, so scanning a text that is put together of two is scanning
the second from where the first left off (`scan_append`).
-/

namespace RobotLang

inductive Scanner.Mode where
  | gap
  | comment
  /-- The word that began at a place, its characters so far in reverse. -/
  | word (start : Span) (chars : List Char)
deriving Repr, DecidableEq

/-- The state between two characters: the tokens completed so far, newest first, the place of the next
character, and what it continues. -/
structure Scanner where
  found : List Token
  place : Span
  mode : Scanner.Mode
deriving Repr, DecidableEq

namespace Scanner

def start : Scanner := ⟨[], .start, .gap⟩

/-- The tokens completed so far, with the word that is under way as one of them. -/
def completed (s : Scanner) : List Token :=
  match s.mode with
  | .word start chars => ⟨String.ofList chars.reverse, some start⟩ :: s.found
  | _ => s.found

/-- Read a character that continues no word and stands in no comment. -/
def fresh (found : List Token) (place : Span) (c : Char) : Scanner :=
  if isWordChar c then ⟨found, place.after c, .word place [c]⟩
  else if c = '#' then ⟨found, place.after c, .comment⟩
  else if Text.isBlank c then ⟨found, place.after c, .gap⟩
  else ⟨⟨String.ofList [c], some place⟩ :: found, place.after c, .gap⟩

def step (s : Scanner) (c : Char) : Scanner :=
  match s.mode with
  | .gap => fresh s.found s.place c
  | .comment => ⟨s.found, s.place.after c, if c = '\n' then .gap else .comment⟩
  | .word start chars =>
    if isWordChar c then ⟨s.found, s.place.after c, .word start (c :: chars)⟩
    else fresh s.completed s.place c

def scan (s : Scanner) (cs : List Char) : Scanner := cs.foldl step s

/-- The tokens of what has been read, closed by the end of the input at the place reached. -/
def finish (s : Scanner) : TokenQueue := ⟨s.completed.reverse, some s.place⟩

theorem scan_append (s : Scanner) (cs ds : List Char) : s.scan (cs ++ ds) = (s.scan cs).scan ds :=
  List.foldl_append

end Scanner

/-- The tokens of a text, in order and with their places. -/
def tokenize (text : String) : TokenQueue := (Scanner.start.scan text.toList).finish

end RobotLang
