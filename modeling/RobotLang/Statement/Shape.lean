import RobotLang.Statement

/-!
The shape of statement trees.

| kind    | statements below               |
|---------|--------------------------------|
| BLOCK   | any number, none of them BLOCK |
| IF      | exactly one BLOCK              |
| IF_ELSE | exactly two BLOCKs             |
| WHILE   | exactly one BLOCK              |
| CALL    | none, and its name is a valid identifier |

`Label.accepts` checks one level of a tree and `Statement.WellShaped` demands it at every level.
`Statement.depth` counts how deep IF and WHILE are nested, and `Statement.words` writes a statement as
the words of a program.
-/

namespace RobotLang

/-- Whether statements of these kinds may stand below the label. -/
def Label.accepts (label : Label) (below : List Kind) : Bool :=
  match label with
  | .block => below.all (· ≠ .block)
  | .ifThen _ => below = [.block]
  | .ifElse _ => below = [.block, .block]
  | .whileDo _ => below = [.block]
  | .call instruction => below.isEmpty && isIdentifier instruction

namespace Statement

mutual

/-- Every level of the tree has the shape its label demands. -/
def WellShaped : Statement → Prop
  | node label children =>
    label.accepts (children.map kind) = true ∧ AllWellShaped children

def AllWellShaped : List Statement → Prop
  | [] => True
  | s :: ss => WellShaped s ∧ AllWellShaped ss

end

mutual

/-- How deep IF and WHILE statements are nested. -/
def depth : Statement → Nat
  | node label children =>
    match label with
    | .block => depthAll children
    | .call _ => 0
    | _ => 1 + depthAll children

def depthAll : List Statement → Nat
  | [] => 0
  | s :: ss => max (depth s) (depthAll ss)

end

mutual

/-- The words of a statement. The two blocks of an IF_ELSE are told apart by the word between them. -/
def words : Statement → List String
  | node .block children => wordsAll children
  | node (.ifThen c) children =>
    [Keyword.if.text, c.spelling, Keyword.then.text] ++ wordsAll children ++
      [Keyword.end.text, Keyword.if.text]
  | node (.ifElse c) (yes :: no) =>
    [Keyword.if.text, c.spelling, Keyword.then.text] ++ words yes ++
      Keyword.else.text :: wordsAll no ++ [Keyword.end.text, Keyword.if.text]
  | node (.ifElse c) [] =>
    [Keyword.if.text, c.spelling, Keyword.then.text, Keyword.else.text, Keyword.end.text,
      Keyword.if.text]
  | node (.whileDo c) children =>
    [Keyword.while.text, c.spelling, Keyword.do.text] ++ wordsAll children ++
      [Keyword.end.text, Keyword.while.text]
  | node (.call instruction) _ => [instruction]

def wordsAll : List Statement → List String
  | [] => []
  | s :: ss => words s ++ wordsAll ss

end

theorem allWellShaped_iff {ss : List Statement} : AllWellShaped ss ↔ ∀ s ∈ ss, s.WellShaped := by
  induction ss with
  | nil => simp [AllWellShaped]
  | cons s ss ih => simp [AllWellShaped, ih]

end Statement

end RobotLang
