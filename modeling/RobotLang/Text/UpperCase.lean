/-!
Upper-casing for comparison with names that are written in ASCII.

A single character may have an upper case of several characters, so the result is a list. Only
characters whose upper case is all ASCII are changed. Every other character stands for itself: its
upper case holds a character beyond ASCII, and so does the character itself, hence neither equals
part of an ASCII name.
-/

namespace RobotLang.Text

/-- The upper case of a character as far as it is ASCII: the letters a to z, the dotless i, the long
s, the sharp s and the Latin ligatures. -/
def upperCase (c : Char) : List Char :=
  if c.isLower then [c.toUpper] else
  match c with
  | 'ı' => ['I']
  | 'ſ' => ['S']
  | 'ß' => ['S', 'S']
  | 'ﬀ' => ['F', 'F']
  | 'ﬁ' => ['F', 'I']
  | 'ﬂ' => ['F', 'L']
  | 'ﬃ' => ['F', 'F', 'I']
  | 'ﬄ' => ['F', 'F', 'L']
  | 'ﬅ' => ['S', 'T']
  | 'ﬆ' => ['S', 'T']
  | c => [c]

end RobotLang.Text
