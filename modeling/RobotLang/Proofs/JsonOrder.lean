import RobotLang.Interchange.Tree
import RobotLang.Json.Writer
import RobotLang.Proofs.Context
import RobotLang.Proofs.Zeros

/-!
JSON values whose members have been put in order. At the end of every path there is what was there
before (`sorted_same`), and keys that are distinct come in ascending order at every level
(`Plain.ascending`). Programs and reports are such values, and there is no zero in what is written for
them (`Plain.zeroFree_spread`).
-/

namespace RobotLang

namespace Json

variable {v w : Json} {key k : String} {members : List (String × Json)} {items : List Json}

/-! ## Paths -/

/-- The way from a value to one of its items or members. -/
inductive Step where
  | index (i : Nat)
  | key (key : String)

def child? : Json → Step → Option Json
  | .array items, .index i => items[i]?
  | .object members, .key key => members.lookup key
  | _, _ => none

def descendant? (v : Json) : List Step → Option Json
  | [] => some v
  | step :: path => (v.child? step).bind fun child => child.descendant? path

/-- What a value is, its items and members apart. -/
inductive Head where
  | single (value : Json)
  | array (length : Nat)
  | object (size : Nat)

def head : Json → Head
  | .array items => .array items.length
  | .object members => .object members.length
  | value => .single value

/-- All paths lead to the same, whatever the order of members. -/
def Same (v w : Json) : Prop :=
  ∀ path, (v.descendant? path).map head = (w.descendant? path).map head

/-- The keys of all objects come in ascending order. -/
def Ascending (v : Json) : Prop :=
  ∀ path members, v.descendant? path = some (.object members) →
    (members.map (·.1)).Pairwise (· < ·)

/-! ## Putting members in order -/

theorem lookup_cons (key k : String) (v : Json) (members : List (String × Json)) :
    ((key, v) :: members).lookup k = if k = key then some v else members.lookup k := by
  by_cases same : k = key
  · simp [same]
  · have differs : (k == key) = false := by simpa using same
    simp only [List.lookup_cons, differs, if_neg same]

theorem lookup_insertMember (key k : String) (v : Json) (members : List (String × Json)) :
    (insertMember key v members).lookup k = if k = key then some v else members.lookup k := by
  induction members with
  | nil => exact lookup_cons key k v []
  | cons member members ih =>
    obtain ⟨first, value⟩ := member
    unfold insertMember
    split
    · rw [lookup_cons]
    · rename_i behind
      -- The member goes further down, so its key is not the one that is passed here.
      rw [lookup_cons, lookup_cons, ih]
      by_cases here : k = first
      · have other : k ≠ key := fun same => behind (same ▸ here ▸ String.le_refl _)
        rw [if_pos here, if_neg other, if_pos here]
      · rw [if_neg here, if_neg here]

theorem perm_insertMember (key : String) (v : Json) (members : List (String × Json)) :
    (insertMember key v members).Perm ((key, v) :: members) := by
  induction members with
  | nil => exact .refl _
  | cons member members ih =>
    unfold insertMember
    split
    · exact .refl _
    · exact (ih.cons member).trans (.swap _ _ _)

theorem ascending_insertMember (ascending : (members.map (·.1)).Pairwise (· < ·))
    (new : key ∉ members.map (·.1)) :
    ((insertMember key v members).map (·.1)).Pairwise (· < ·) := by
  induction members with
  | nil => simp [insertMember]
  | cons member members ih =>
    obtain ⟨least, rest⟩ := List.pairwise_cons.mp ascending
    rw [List.map_cons, List.mem_cons, not_or] at new
    unfold insertMember
    split
    · rename_i before
      have first : key < member.1 := Std.lt_of_le_of_ne before new.1
      refine List.pairwise_cons.mpr ⟨List.forall_mem_cons.mpr ⟨first, fun k mem => ?_⟩, ascending⟩
      exact String.lt_trans first (least k mem)
    · rename_i behind
      refine List.pairwise_cons.mpr ⟨fun k mem => ?_, ih rest new.2⟩
      have mem := ((perm_insertMember key v members).map (·.1)).mem_iff.mp mem
      rcases List.mem_cons.mp mem with rfl | mem
      · exact String.not_le.mp behind
      · exact least k mem

theorem sortedItems_eq (items : List Json) : sortedItems items = items.map sorted := by
  induction items with
  | nil => rfl
  | cons item items ih => simp [sortedItems, ih]

theorem lookup_sortedMembers (members : List (String × Json)) (k : String) :
    (sortedMembers members).lookup k = (members.lookup k).map sorted := by
  induction members with
  | nil => rfl
  | cons member members ih =>
    obtain ⟨key, v⟩ := member
    rw [sortedMembers, lookup_insertMember, lookup_cons, ih]
    split <;> rfl

theorem perm_sortedMembers (members : List (String × Json)) :
    (sortedMembers members).Perm (members.map fun member => (member.1, member.2.sorted)) := by
  induction members with
  | nil => exact .refl _
  | cons member members ih =>
    obtain ⟨key, v⟩ := member
    exact (perm_insertMember key v.sorted _).trans (ih.cons _)

theorem keys_sortedMembers (members : List (String × Json)) :
    ((sortedMembers members).map (·.1)).Perm (members.map (·.1)) := by
  simpa [List.map_map, Function.comp_def] using (perm_sortedMembers members).map (·.1)

theorem ascending_sortedMembers (distinct : (members.map (·.1)).Nodup) :
    ((sortedMembers members).map (·.1)).Pairwise (· < ·) := by
  induction members with
  | nil => exact .nil
  | cons member members ih =>
    obtain ⟨key, v⟩ := member
    obtain ⟨new, rest⟩ := List.nodup_cons.mp distinct
    refine ascending_insertMember (ih rest) fun mem => new ?_
    exact (keys_sortedMembers members).mem_iff.mp mem

theorem sortedMembers_of_ascending {members : List (String × Json)}
    (ascending : (members.map (·.1)).Pairwise (· < ·)) :
    sortedMembers members = members.map fun member => (member.1, member.2.sorted) := by
  induction members with
  | nil => rfl
  | cons member members ih =>
    obtain ⟨least, rest⟩ := List.pairwise_cons.mp ascending
    rw [sortedMembers, ih rest]
    cases members with
    | nil => rfl
    | cons next members =>
      have first : member.1 ≤ next.1 := Std.le_of_lt (least next.1 List.mem_cons_self)
      simp [insertMember, first]

theorem head_sorted (v : Json) : v.sorted.head = v.head := by
  cases v with
  | array items => simp [sorted, head, sortedItems_eq]
  | object members => simp [sorted, head, (perm_sortedMembers members).length_eq]
  | _ => rfl

theorem child?_sorted (v : Json) (step : Step) : v.sorted.child? step = (v.child? step).map sorted := by
  cases v with
  | array items => cases step <;> simp [sorted, child?, sortedItems_eq]
  | object members => cases step <;> simp [sorted, child?, lookup_sortedMembers]
  | _ => cases step <;> simp [sorted, child?]

theorem descendant?_sorted (v : Json) (path : List Step) :
    v.sorted.descendant? path = (v.descendant? path).map sorted := by
  induction path generalizing v with
  | nil => rfl
  | cons step path ih =>
    rw [descendant?, descendant?, child?_sorted]
    cases v.child? step with
    | none => rfl
    | some child => exact ih child

theorem sorted_same (v : Json) : v.sorted.Same v := by
  intro path
  rw [descendant?_sorted, Option.map_map]
  congr 1
  funext descendant
  exact head_sorted descendant

/-! ## Plain values -/

/-- Values as records are written: numbers are computed, and the keys of an object are distinct. -/
inductive Plain : Json → Prop
  | null : Plain .null
  | bool (b : Bool) : Plain (.bool b)
  | natural (n : Nat) : Plain (.natural n)
  | string (s : String) : Plain (.string s)
  | array {items : List Json} (inside : ∀ item ∈ items, Plain item) : Plain (.array items)
  | object {members : List (String × Json)} (distinct : (members.map (·.1)).Nodup)
      (inside : ∀ member ∈ members, Plain member.2) : Plain (.object members)

theorem Plain.sorted (plain : v.Plain) : v.sorted.Plain := by
  induction plain with
  | null => exact .null
  | bool b => exact .bool b
  | natural n => exact .natural n
  | string s => exact .string s
  | array _ ih =>
    rw [Json.sorted, sortedItems_eq]
    refine .array fun item mem => ?_
    obtain ⟨unsorted, there, rfl⟩ := List.mem_map.mp mem
    exact ih unsorted there
  | @object members distinct _ ih =>
    rw [Json.sorted]
    refine .object ((keys_sortedMembers members).nodup_iff.mpr distinct) fun member mem => ?_
    obtain ⟨unsorted, there, rfl⟩ := List.mem_map.mp ((perm_sortedMembers members).mem_iff.mp mem)
    exact ih unsorted there

theorem Plain.child {step : Step} (plain : v.Plain) (h : v.child? step = some w) : w.Plain := by
  cases plain with
  | array inside =>
    cases step with
    | index i => exact inside w (List.mem_of_getElem? h)
    | key => cases h
  | object _ inside =>
    cases step with
    | index => cases h
    | key key =>
      obtain ⟨before, after, rfl, -⟩ := List.lookup_eq_some_iff.mp h
      exact inside (key, w) (by simp)
  | _ => cases step <;> cases h

theorem Plain.descendant {path : List Step} (plain : v.Plain) (h : v.descendant? path = some w) :
    w.Plain := by
  induction path generalizing v with
  | nil =>
    cases h
    exact plain
  | cons step path ih =>
    obtain ⟨child, located, h⟩ := Option.bind_eq_some_iff.mp h
    exact ih (plain.child located) h

theorem Plain.ascending (plain : v.Plain) : v.sorted.Ascending := by
  intro path members located
  rw [descendant?_sorted] at located
  obtain ⟨w, there, sorts⟩ := Option.map_eq_some_iff.mp located
  cases plain.descendant there with
  | object distinct =>
    cases sorts
    exact ascending_sortedMembers distinct
  | _ => cases sorts

/-! ## Writing -/

theorem zero_not_mem_escape (c : Char) : '\x00' ∉ escape c := by
  by_cases zero : c = '\x00'
  · rw [zero]
    decide
  · unfold escape
    repeat' split
    all_goals simp [Text.hexPair, Ne.symm, zero]

theorem zeroFree_writeString (s : String) {out : String} (free : ZeroFree out) :
    ZeroFree (writeString out s) := by
  have escaped : ZeroFree (String.ofList (s.toList.flatMap escape)) := by
    intro zero
    rw [String.toList_ofList] at zero
    obtain ⟨c, -, zero⟩ := List.mem_flatMap.mp zero
    exact zero_not_mem_escape c zero
  have quote : ZeroFree "\"" := by decide
  simp only [writeString, zeroFree_append, free, quote, escaped, and_self]

theorem zeroFree_lineBreak (style : Style) (depth : Nat) : ZeroFree (style.lineBreak depth) := by
  cases style with
  | compact => exact List.not_mem_nil
  | spread => simp [Style.lineBreak, ZeroFree]

theorem zeroFree_colon (style : Style) : ZeroFree style.colon := by
  cases style <;> decide

/-- Nothing that is written for the value is zero. -/
def Clean (style : Style) (v : Json) : Prop :=
  ∀ (depth : Nat) (out : String), ZeroFree out → ZeroFree (write style depth out v)

theorem zeroFree_writeItems {style : Style} (inside : ∀ item ∈ items, Clean style item) (depth : Nat)
    {out : String} (free : ZeroFree out) : ZeroFree (writeItems style depth out items) := by
  induction items generalizing out with
  | nil => exact free
  | cons item items ih =>
    obtain ⟨first, rest⟩ := List.forall_mem_cons.mp inside
    have comma : ZeroFree "," := by decide
    refine ih rest (first depth _ ?_)
    simp only [zeroFree_append, free, comma, zeroFree_lineBreak, and_self]

theorem zeroFree_writeMembers {style : Style} (inside : ∀ member ∈ members, Clean style member.2)
    (depth : Nat) {out : String} (free : ZeroFree out) :
    ZeroFree (writeMembers style depth out members) := by
  induction members generalizing out with
  | nil => exact free
  | cons member members ih =>
    obtain ⟨first, rest⟩ := List.forall_mem_cons.mp inside
    have comma : ZeroFree "," := by decide
    refine ih rest (first depth _ (zeroFree_append.mpr ⟨zeroFree_writeString _ ?_, zeroFree_colon _⟩))
    simp only [zeroFree_append, free, comma, zeroFree_lineBreak, and_self]

theorem Plain.clean (plain : v.Plain) (style : Style) : Clean style v := by
  induction plain with
  | null => exact fun _ _ free => zeroFree_append.mpr ⟨free, by decide⟩
  | bool b =>
    cases b <;> exact fun _ _ free => zeroFree_append.mpr ⟨free, by decide⟩
  | natural n => exact fun _ _ free => zeroFree_append.mpr ⟨free, zeroFree_repr n⟩
  | string s => exact fun _ _ free => zeroFree_writeString s free
  | @array items _ ih =>
    intro depth out free
    cases items with
    | nil => exact zeroFree_append.mpr ⟨free, by decide⟩
    | cons item items =>
      obtain ⟨first, rest⟩ := List.forall_mem_cons.mp ih
      have bracket : ZeroFree "[" := by decide
      have closing : ZeroFree "]" := by decide
      have start : ZeroFree (out ++ "[" ++ style.lineBreak (depth + 1)) := by
        simp only [zeroFree_append, free, bracket, zeroFree_lineBreak, and_self]
      have written := zeroFree_writeItems rest (depth + 1) (first (depth + 1) _ start)
      simp only [write, zeroFree_append, written, closing, zeroFree_lineBreak, and_self]
  | @object members _ _ ih =>
    intro depth out free
    cases members with
    | nil => exact zeroFree_append.mpr ⟨free, by decide⟩
    | cons member members =>
      obtain ⟨first, rest⟩ := List.forall_mem_cons.mp ih
      have brace : ZeroFree "\x7b" := by decide
      have closing : ZeroFree "\x7d" := by decide
      have start : ZeroFree (out ++ "\x7b" ++ style.lineBreak (depth + 1)) := by
        simp only [zeroFree_append, free, brace, zeroFree_lineBreak, and_self]
      have name := zeroFree_append.mpr ⟨zeroFree_writeString member.1 start, zeroFree_colon style⟩
      have written := zeroFree_writeMembers rest (depth + 1) (first (depth + 1) _ name)
      simp only [write, zeroFree_append, written, closing, zeroFree_lineBreak, and_self]

theorem Plain.zeroFree_spread (plain : v.Plain) : ZeroFree v.spread :=
  plain.clean .spread 0 "" (by decide)

end Json

/-! ## Programs and reports -/

theorem Label.plain_toJson (label : Label) : label.toJson.Plain := by
  cases label <;>
    exact .object (by simp) (by simp [Json.Plain.string, Kind.toJson, Condition.toJson])

theorem Statement.toJsonAll_eq (ss : List Statement) : toJsonAll ss = ss.map toJson := by
  induction ss with
  | nil => rfl
  | cons s ss ih => simp [toJsonAll, ih]

theorem Statement.plain_toJson : ∀ s : Statement, s.toJson.Plain
  | node label children => by
    have inside : ∀ item ∈ children.map toJson, item.Plain := by
      intro item mem
      obtain ⟨child, below, rfl⟩ := List.mem_map.mp mem
      exact plain_toJson child
    rw [toJson, toJsonAll_eq]
    exact .object (by simp) (by simpa using ⟨label.plain_toJson, .array inside⟩)

theorem Context.plain_toJson (context : Context) : context.toJson.Plain := by
  refine .object ?_ fun member mem => ?_
  · simpa [List.map_map, Function.comp_def] using context.nodup_names
  · obtain ⟨entry, -, rfl⟩ := List.mem_map.mp mem
    exact entry.2.plain_toJson

theorem Context.sorted_toJson (context : Context) :
    context.toJson.sorted =
      .object (context.entries.map fun d => (d.1, d.2.toJson.sorted)) := by
  have ascending : ((context.entries.map fun d => (d.1, d.2.toJson)).map (·.1)).Pairwise
      (· < ·) := by
    rw [List.map_map]
    exact context.names_ascending
  rw [Context.toJson, Json.sorted, Json.sortedMembers_of_ascending ascending, List.map_map]
  rfl

theorem Program.plain_toJson (p : Program) : p.toJson.Plain :=
  .object (by simp)
    (by simpa using ⟨.string p.name, p.context.plain_toJson, p.body.plain_toJson⟩)

theorem Program.sorted_toJson (p : Program) :
    p.toJson.sorted = .object [("body", p.body.toJson.sorted), ("context", p.context.toJson.sorted),
      ("name", .string p.name)] := by
  have order : ¬ "name" ≤ "body" ∧ ¬ "name" ≤ "context" ∧ ¬ "context" ≤ "body" := by decide
  simp only [toJson, Json.sorted, Json.sortedMembers, Json.insertMember, order, if_false]

theorem Diagnostic.plain_summary (d : Diagnostic) : d.summary.Plain := by
  have coordinate (n : Option Nat) : (Json.ofNatural? n).Plain := by
    cases n with
    | none => exact .null
    | some n => exact .natural n
  exact .object (by simp) (by simp [ErrorKind.toJson, Json.Plain.string, coordinate])

theorem plain_checkReport (text : String) : (checkReport text).Plain := by
  unfold checkReport
  split
  · exact .object (by simp) (by simpa using ⟨.bool true, .null⟩)
  · exact .object (by simp) (by simpa using ⟨.bool false, Diagnostic.plain_summary _⟩)

end RobotLang
