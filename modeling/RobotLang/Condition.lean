import RobotLang.Text.UpperCase

/-!
The sensor conditions that `IF` and `WHILE` test. Each has one spelling inside programs
(`next-is-wall`) and one name for exchange with other tools (`NEXT_IS_WALL`). Main statements: only
the spelling itself is read as a condition inside a program (`ofSpelling?_eq_some_iff`), and it also
resolves to that condition (`resolve?_spelling`).
-/

namespace RobotLang

/-- What a robot can ask about the cell in front of it, or of chance. -/
inductive Condition where
  | nextIsEmpty
  | nextIsNotEmpty
  | nextIsEnemy
  | nextIsNotEnemy
  | nextIsFriend
  | nextIsNotFriend
  | nextIsWall
  | nextIsNotWall
  | random
  | true
deriving Repr, DecidableEq

namespace Condition

def all : List Condition :=
  [nextIsEmpty, nextIsNotEmpty, nextIsEnemy, nextIsNotEnemy, nextIsFriend, nextIsNotFriend,
   nextIsWall, nextIsNotWall, random, .true]

def spelling : Condition → String
  | nextIsEmpty => "next-is-empty"
  | nextIsNotEmpty => "next-is-not-empty"
  | nextIsEnemy => "next-is-enemy"
  | nextIsNotEnemy => "next-is-not-enemy"
  | nextIsFriend => "next-is-friend"
  | nextIsNotFriend => "next-is-not-friend"
  | nextIsWall => "next-is-wall"
  | nextIsNotWall => "next-is-not-wall"
  | random => "random"
  | .true => "true"

/-- The name of the condition in upper case, with underscores. -/
def name : Condition → String
  | nextIsEmpty => "NEXT_IS_EMPTY"
  | nextIsNotEmpty => "NEXT_IS_NOT_EMPTY"
  | nextIsEnemy => "NEXT_IS_ENEMY"
  | nextIsNotEnemy => "NEXT_IS_NOT_ENEMY"
  | nextIsFriend => "NEXT_IS_FRIEND"
  | nextIsNotFriend => "NEXT_IS_NOT_FRIEND"
  | nextIsWall => "NEXT_IS_WALL"
  | nextIsNotWall => "NEXT_IS_NOT_WALL"
  | random => "RANDOM"
  | .true => "TRUE"

/-- The place of the condition in `all`, counted from zero. -/
def index (c : Condition) : Nat := all.idxOf c

/-- The condition with exactly this spelling. -/
def ofSpelling? (word : String) : Option Condition := all.find? fun c => c.spelling == word

def ofName? (word : String) : Option Condition := all.find? fun c => c.name == word

def underscored (c : Char) : Char := if c = '-' then '_' else c

/-- The condition whose name the word is, whatever the case of its letters and whether it is written
with hyphens or underscores. -/
def resolve? (word : String) : Option Condition :=
  let spelled := word.toList.flatMap fun c => Text.upperCase (underscored c)
  all.find? fun c => c.name.toList == spelled

theorem mem_all (c : Condition) : c ∈ all := by cases c <;> decide

theorem spelling_injective {c d : Condition} (h : c.spelling = d.spelling) : c = d := by
  revert h; cases c <;> cases d <;> decide

theorem ofSpelling?_spelling (c : Condition) : ofSpelling? c.spelling = some c := by
  cases c <;> decide +kernel

theorem ofSpelling?_eq_some_iff {word : String} {c : Condition} :
    ofSpelling? word = some c ↔ word = c.spelling := by
  constructor
  · intro h
    unfold ofSpelling? at h
    exact (beq_iff_eq.mp (List.find?_some h :)).symm
  · rintro rfl
    exact ofSpelling?_spelling c

theorem resolve?_spelling (c : Condition) : resolve? c.spelling = some c := by
  cases c <;> decide +kernel

end Condition

end RobotLang
