/-!
JSON values. Members of an object keep the order in which they are written; `Json.sorted` puts them in
ascending order of their keys, at every level.
-/

namespace RobotLang

/-- A JSON value. Natural numbers are the only numbers that anything here is computed from; every other
number is kept as it is spelled. -/
inductive Json where
  | null
  | bool (b : Bool)
  | natural (n : Nat)
  | number (spelling : String)
  | string (s : String)
  | array (items : List Json)
  | object (members : List (String × Json))
deriving Repr

namespace Json

def ofText? (text : Option String) : Json := (text.map string).getD null

def ofNatural? (n : Option Nat) : Json := (n.map natural).getD null

def member? (members : List (String × Json)) (key : String) : Option Json := members.lookup key

/-- Put a member in its place among members in ascending order of their keys. -/
def insertMember (key : String) (value : Json) : List (String × Json) → List (String × Json)
  | [] => [(key, value)]
  | member :: rest =>
    if key ≤ member.1 then (key, value) :: member :: rest
    else member :: insertMember key value rest

mutual

/-- The value with the members of all its objects in ascending order of their keys. -/
def sorted : Json → Json
  | array items => array (sortedItems items)
  | object members => object (sortedMembers members)
  | value => value

def sortedItems : List Json → List Json
  | [] => []
  | item :: items => sorted item :: sortedItems items

def sortedMembers : List (String × Json) → List (String × Json)
  | [] => []
  | (key, value) :: members => insertMember key (sorted value) (sortedMembers members)

end

end Json

end RobotLang
