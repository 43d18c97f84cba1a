import RobotLang.Program.Context

/-!
Contexts and the entries they are put together from. When no name repeats, a context holds exactly
the entries it was given (`perm_ofEntries`), in whatever order they come (`ofEntries_eq_iff`).
-/

namespace RobotLang.Context

theorem mem_insertAll {entries : List (String × Statement)} {context : Context}
    {e : String × Statement}
    (h : e ∈ (entries.foldl (fun context entry => context.insert entry.1 entry.2) context).entries) :
    e ∈ entries ∨ e ∈ context.entries := by
  induction entries generalizing context with
  | nil => exact .inr h
  | cons entry rest ih =>
    rcases ih h with mem | mem
    · exact .inl (List.mem_cons_of_mem _ mem)
    · rcases mem_insertEntry mem with rfl | mem
      · exact .inl List.mem_cons_self
      · exact .inr mem

theorem mem_of_mem_ofEntries {entries : List (String × Statement)} {e : String × Statement}
    (h : e ∈ (ofEntries entries).entries) : e ∈ entries := by
  rcases mem_insertAll h with mem | mem
  · exact mem
  · cases mem

theorem perm_insertEntry {name : String} {body : Statement} :
    ∀ {entries : List (String × Statement)}, name ∉ entries.map (·.1) →
      (insertEntry name body entries).Perm ((name, body) :: entries)
  | [], _ => .refl _
  | entry :: rest, new => by
    simp only [List.map_cons, List.mem_cons, not_or] at new
    unfold insertEntry
    split
    · exact .refl _
    · rw [if_neg new.1]
      exact ((perm_insertEntry new.2).cons entry).trans (.swap _ _ _)

theorem perm_insertAll (context : Context) {entries : List (String × Statement)}
    (distinct : ((entries ++ context.entries).map (·.1)).Nodup) :
    (entries.foldl (fun context entry => context.insert entry.1 entry.2) context).entries.Perm
      (entries ++ context.entries) := by
  induction entries generalizing context with
  | nil => exact .refl _
  | cons entry rest ih =>
    have new : entry.1 ∉ context.entries.map (·.1) := by
      rw [List.cons_append, List.map_cons, List.nodup_cons, List.map_append,
        List.mem_append] at distinct
      exact fun mem => distinct.1 (.inr mem)
    have inserted : (rest ++ (context.insert entry.1 entry.2).entries).Perm
        (entry :: rest ++ context.entries) :=
      ((perm_insertEntry new).append_left rest).trans List.perm_middle
    exact (ih _ ((inserted.map (·.1)).nodup_iff.mpr distinct)).trans inserted

theorem perm_ofEntries {entries : List (String × Statement)} (distinct : (entries.map (·.1)).Nodup) :
    (ofEntries entries).entries.Perm entries := by
  have h := perm_insertAll empty (by simpa [empty] using distinct)
  simpa [ofEntries, empty] using h

theorem nodup_names (context : Context) : (context.entries.map (·.1)).Nodup := by
  refine List.Pairwise.imp ?_ context.names_ascending
  intro a b before same
  rw [same] at before
  exact String.lt_irrefl b before

theorem eq_of_perm {c d : Context} (h : c.entries.Perm d.entries) : c = d := by
  have same : c.entries = d.entries := by
    refine List.Perm.eq_of_pairwise ?_ c.ascending d.ascending h
    intro a b _ _ before after
    exact absurd after (String.lt_asymm before)
  cases c
  cases d
  congr

theorem ofEntries_eq_iff {entries : List (String × Statement)} {context : Context}
    (distinct : (entries.map (·.1)).Nodup) :
    ofEntries entries = context ↔ context.entries.Perm entries := by
  constructor
  · rintro rfl
    exact perm_ofEntries distinct
  · intro h
    exact eq_of_perm ((perm_ofEntries distinct).trans h.symm)

end RobotLang.Context
