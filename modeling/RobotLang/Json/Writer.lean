import RobotLang.Json
import RobotLang.Text.Hexadecimal

/-!
Writing JSON values as text, in two styles. The compact style has no white space. The spread style has
each item and member on a line of its own, indented by two spaces for each array and object around it,
and writes empty arrays and objects as two brackets.

In strings only the quote, the backslash and the characters below U+0020 are escaped.
-/

namespace RobotLang.Json

inductive Style where
  | compact
  | spread
deriving Repr, DecidableEq

namespace Style

/-- What stands before an item or a closing bracket that lies inside so many brackets. -/
def lineBreak (style : Style) (depth : Nat) : String :=
  match style with
  | compact => ""
  | spread => "\n" ++ String.ofList (List.replicate (2 * depth) ' ')

def colon : Style → String
  | compact => ":"
  | spread => ": "

end Style

def escape (c : Char) : List Char :=
  if c = '"' then ['\\', '"']
  else if c = '\\' then ['\\', '\\']
  else if c = '\x08' then ['\\', 'b']
  else if c = '\t' then ['\\', 't']
  else if c = '\n' then ['\\', 'n']
  else if c = '\x0c' then ['\\', 'f']
  else if c = '\r' then ['\\', 'r']
  else if c.toNat < 0x20 then ['\\', 'u', '0', '0'] ++ Text.hexPair c.toNat
  else [c]

/-- Write a string, with its quotes, behind a text. -/
def writeString (out s : String) : String :=
  out ++ "\"" ++ String.ofList (s.toList.flatMap escape) ++ "\""

mutual

/-- Write a value that lies inside so many brackets behind a text. -/
def write (style : Style) (depth : Nat) (out : String) : Json → String
  | .null => out ++ "null"
  | .bool true => out ++ "true"
  | .bool false => out ++ "false"
  | .natural n => out ++ n.repr
  | .number spelling => out ++ spelling
  | .string s => writeString out s
  | .array [] => out ++ "[]"
  | .array (item :: items) =>
    let head := write style (depth + 1) (out ++ "[" ++ style.lineBreak (depth + 1)) item
    writeItems style (depth + 1) head items ++ style.lineBreak depth ++ "]"
  | .object [] => out ++ "\x7b\x7d"
  | .object ((key, value) :: members) =>
    let start := writeString (out ++ "\x7b" ++ style.lineBreak (depth + 1)) key ++ style.colon
    let head := write style (depth + 1) start value
    writeMembers style (depth + 1) head members ++ style.lineBreak depth ++ "\x7d"

def writeItems (style : Style) (depth : Nat) (out : String) : List Json → String
  | [] => out
  | item :: items =>
    writeItems style depth (write style depth (out ++ "," ++ style.lineBreak depth) item) items

def writeMembers (style : Style) (depth : Nat) (out : String) : List (String × Json) → String
  | [] => out
  | (key, value) :: members =>
    let start := writeString (out ++ "," ++ style.lineBreak depth) key ++ style.colon
    writeMembers style depth (write style depth start value) members

end

def compact (value : Json) : String := write .compact 0 "" value

def spread (value : Json) : String := write .spread 0 "" value

end RobotLang.Json
