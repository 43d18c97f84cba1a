/-!
Registers: values under names. A register that was never written holds a value that is given when it is
read. Main statement: a register holds what was written last (`get_set`).
-/

namespace RobotLang

/-- The values that have been written, each name once. -/
structure Registers (α : Type) where
  entries : List (String × α)

namespace Registers

variable {α : Type}

def empty : Registers α := ⟨[]⟩

def get (unwritten : α) (r : Registers α) (name : String) : α :=
  (r.entries.lookup name).getD unwritten

/-- Write among entries: in place of the entry of that name, or at the end. -/
def write (name : String) (value : α) : List (String × α) → List (String × α)
  | [] => [(name, value)]
  | entry :: rest =>
    if entry.1 = name then (name, value) :: rest else entry :: write name value rest

def set (r : Registers α) (name : String) (value : α) : Registers α := ⟨write name value r.entries⟩

def names (r : Registers α) : List String := r.entries.map (·.1)

theorem lookup_write (name other : String) (value : α) (entries : List (String × α)) :
    (write name value entries).lookup other =
      if other = name then some value else entries.lookup other := by
  induction entries with
  | nil =>
    by_cases h : other = name
    · simp [write, h]
    · have differs : (other == name) = false := by simpa using h
      simp [write, List.lookup_cons, h, differs]
  | cons entry rest ih =>
    obtain ⟨key, old⟩ := entry
    unfold write
    split
    · rename_i same
      by_cases h : other = name
      · simp [h]
      · have differs : (other == name) = false := by simpa using h
        have other_ne : (other == key) = false := by simpa [show key = name from same] using h
        simp [List.lookup_cons, h, differs, other_ne]
    · rename_i differs
      by_cases h : other = key
      · subst h
        simp [differs]
      · have other_ne : (other == key) = false := by simpa using h
        simp [List.lookup_cons, other_ne, ih]

theorem get_set (unwritten value : α) (r : Registers α) (name other : String) :
    (r.set name value).get unwritten other = if other = name then value else r.get unwritten other := by
  simp only [get, set, lookup_write]
  split <;> simp

end Registers

end RobotLang
