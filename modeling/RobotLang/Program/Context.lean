import RobotLang.Statement

/-!
Instruction contexts: the instructions that a program declares, each name with its body. Entries are
kept in ascending order of names, so a context is the same however it was put together, and listings
need no sorting. Names are compared character by character by code point, which is also the order of
their bytes in UTF-8.

Main statement: inserting keeps the order (`ascending_insertEntry`), so names do not repeat.
-/

namespace RobotLang

/-- The instructions of a program, in ascending order of their names. -/
structure Context where
  entries : List (String × Statement)
  ascending : entries.Pairwise fun a b => a.1 < b.1
deriving DecidableEq

namespace Context

def empty : Context := ⟨[], .nil⟩

/-- Put an entry in its place among ascending entries; an entry of the same name gives way. -/
def insertEntry (name : String) (body : Statement) :
    List (String × Statement) → List (String × Statement)
  | [] => [(name, body)]
  | entry :: rest =>
    if name < entry.1 then (name, body) :: entry :: rest
    else if name = entry.1 then (name, body) :: rest
    else entry :: insertEntry name body rest

theorem mem_insertEntry {name : String} {body : Statement} {e : String × Statement} :
    ∀ {entries : List (String × Statement)},
      e ∈ insertEntry name body entries → e = (name, body) ∨ e ∈ entries
  | [], h => by simpa [insertEntry] using h
  | entry :: rest, h => by
    unfold insertEntry at h
    split at h
    · simpa using h
    · split at h
      · rcases List.mem_cons.mp h with h | h
        · exact .inl h
        · exact .inr (List.mem_cons_of_mem _ h)
      · rcases List.mem_cons.mp h with h | h
        · exact .inr (by simp [h])
        · rcases mem_insertEntry h with h | h
          · exact .inl h
          · exact .inr (List.mem_cons_of_mem _ h)

theorem ascending_insertEntry {name : String} {body : Statement} :
    ∀ {entries : List (String × Statement)}, (entries.Pairwise fun a b => a.1 < b.1) →
      (insertEntry name body entries).Pairwise fun a b => a.1 < b.1
  | [], _ => by simp [insertEntry]
  | entry :: rest, h => by
    have ⟨first, tail⟩ := List.pairwise_cons.mp h
    unfold insertEntry
    split
    · rename_i before
      refine List.pairwise_cons.mpr ⟨fun e he => ?_, h⟩
      rcases List.mem_cons.mp he with rfl | he
      · exact before
      · exact String.lt_trans before (first e he)
    · split
      · rename_i _ same
        exact List.pairwise_cons.mpr ⟨fun e he => same ▸ first e he, tail⟩
      · rename_i notBefore notSame
        refine List.pairwise_cons.mpr ⟨fun e he => ?_, ascending_insertEntry tail⟩
        rcases mem_insertEntry he with rfl | he
        · exact Std.lt_of_le_of_ne (String.not_lt.mp notBefore) (Ne.symm notSame)
        · exact first e he

/-- Declare an instruction; an earlier one of the same name gives way. -/
def insert (context : Context) (name : String) (body : Statement) : Context :=
  ⟨insertEntry name body context.entries, ascending_insertEntry context.ascending⟩

/-- The context of the given entries; of two entries of one name the later one stays. -/
def ofEntries (entries : List (String × Statement)) : Context :=
  entries.foldl (fun context entry => context.insert entry.1 entry.2) empty

def names (context : Context) : List String := context.entries.map (·.1)

def size (context : Context) : Nat := context.entries.length

def get? (context : Context) (name : String) : Option Statement := context.entries.lookup name

theorem names_ascending (context : Context) : context.names.Pairwise (· < ·) :=
  List.pairwise_map.mpr context.ascending

end Context

end RobotLang
