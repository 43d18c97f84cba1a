import RobotLang.Token

/-!
Statement trees: a label and the statements below it, in order. Which statements may stand below which
label is said in `RobotLang.Statement.Shape`. Main statement: two statements are compared by
`Statement.same`, which decides their equality (`same_iff`).
-/

namespace RobotLang

inductive Kind where
  | block
  | ifThen
  | ifElse
  | whileDo
  | call
deriving Repr, DecidableEq

namespace Kind

def all : List Kind := [block, ifThen, ifElse, whileDo, call]

/-- The name of the kind in messages and in exchange with other tools. -/
def name : Kind → String
  | block => "BLOCK"
  | ifThen => "IF"
  | ifElse => "IF_ELSE"
  | whileDo => "WHILE"
  | call => "CALL"

end Kind

/-- What a statement is, the statements below it apart. -/
inductive Label where
  | block
  | ifThen (condition : Condition)
  | ifElse (condition : Condition)
  | whileDo (condition : Condition)
  | call (instruction : String)
deriving Repr, DecidableEq

namespace Label

def kind : Label → Kind
  | block => .block
  | ifThen _ => .ifThen
  | ifElse _ => .ifElse
  | whileDo _ => .whileDo
  | call _ => .call

def condition? : Label → Option Condition
  | ifThen c => some c
  | ifElse c => some c
  | whileDo c => some c
  | block => none
  | call _ => none

def instruction? : Label → Option String
  | call instruction => some instruction
  | _ => none

end Label

inductive Statement where
  | node (label : Label) (children : List Statement)
deriving Repr

namespace Statement

def label : Statement → Label
  | node label _ => label

def children : Statement → List Statement
  | node _ children => children

def kind (s : Statement) : Kind := s.label.kind

def block (statements : List Statement) : Statement := node .block statements

def empty : Statement := block []

def call (instruction : String) : Statement := node (.call instruction) []

instance : Inhabited Statement := ⟨empty⟩

/-- The statement below at the end of a path of child numbers. -/
def descendant? (s : Statement) : List Nat → Option Statement
  | [] => some s
  | i :: path => s.children[i]?.bind fun child => child.descendant? path

/-! ## Equality -/

mutual

def same : Statement → Statement → Bool
  | node l ss, node m ts => l = m && sameAll ss ts

def sameAll : List Statement → List Statement → Bool
  | [], [] => true
  | s :: ss, t :: ts => same s t && sameAll ss ts
  | _, _ => false

end

mutual

theorem same_iff : ∀ {s t : Statement}, same s t = true ↔ s = t
  | node l ss, node m ts => by
    simp only [same, Bool.and_eq_true, decide_eq_true_eq, @sameAll_iff ss ts, node.injEq]

theorem sameAll_iff : ∀ {ss ts : List Statement}, sameAll ss ts = true ↔ ss = ts
  | [], [] => by simp [sameAll]
  | [], _ :: _ => by simp [sameAll]
  | _ :: _, [] => by simp [sameAll]
  | s :: ss, t :: ts => by
    simp only [sameAll, Bool.and_eq_true, @same_iff s t, @sameAll_iff ss ts, List.cons.injEq]

end

instance : DecidableEq Statement := fun _ _ => decidable_of_iff _ same_iff

end Statement

end RobotLang
