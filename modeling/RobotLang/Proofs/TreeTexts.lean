import RobotLang.Proofs.JsonTexts
import RobotLang.Proofs.RecordForms

/-!
Statements and programs as JSON. Whether the members are in the order of the fields or of their keys,
a value is that of one tree only, and so is its text, in either style. The items of an array are the
statements below, in order, and the members of a context are the instructions, each of them once.

Main statement: `trees_read_off`.
-/

namespace RobotLang

open Json

variable {style : Style} {depth : Nat}

/-! ## Trees and values -/

theorem Label.ofJson?_sorted (label : Label) : ofJson? label.toJson.sorted = some label := by
  refine Eq.trans ?_ label.ofJson?_toJson
  have widens {members : List (String × Json)} (distinct : (members.map (·.1)).Nodup)
      (same : members.map (fun member => (member.1, member.2.sorted)) = members) :
      Widens fieldNames members (sortedMembers members) :=
    ⟨distinct, [], by simp, by simpa [same] using perm_sortedMembers members⟩
  cases label <;> exact ofJson?_widened (widens (by simp) rfl)

namespace Statement

theorem sorted_toJson (label : Label) (children : List Statement) :
    (node label children).toJson.sorted = .object [
      ("children", .array (children.map fun child => child.toJson.sorted)),
      ("label", label.toJson.sorted)] := by
  have order : ¬ "label" ≤ "children" := by decide
  simp [toJson, toJsonAll_eq, sorted, sortedItems_eq, sortedMembers, insertMember, order]

theorem eq_of_map {f : Statement → Json} {ss ts : List Statement}
    (determines : ∀ s ∈ ss, ∀ t, f s = f t → s = t) (same : ss.map f = ts.map f) : ss = ts := by
  induction ss generalizing ts with
  | nil => simpa [eq_comm] using same
  | cons s ss ih =>
    obtain ⟨t, ts, rfl, first, rest⟩ := List.map_eq_cons_iff.mp same.symm
    obtain ⟨here, below⟩ := List.forall_mem_cons.mp determines
    rw [here t first.symm, ih below rest.symm]

theorem eq_of_sorted : ∀ s t : Statement, s.toJson.sorted = t.toJson.sorted → s = t
  | node label children, node label' children', same => by
    rw [sorted_toJson, sorted_toJson] at same
    simp only [Json.object.injEq, List.cons.injEq, Prod.mk.injEq, Json.array.injEq, true_and,
      and_true] at same
    obtain ⟨below, labels⟩ := same
    have labels := congrArg Label.ofJson? labels
    rw [label.ofJson?_sorted, label'.ofJson?_sorted, Option.some.injEq] at labels
    have below := eq_of_map (fun s _ t => eq_of_sorted s t) below
    rw [labels, below]

end Statement

theorem Context.eq_of_sorted {c d : Context} (same : c.toJson.sorted = d.toJson.sorted) : c = d := by
  have determines : ∀ a b : String × Statement,
      (a.1, a.2.toJson.sorted) = (b.1, b.2.toJson.sorted) → a = b := by
    rintro ⟨name, body⟩ ⟨name', body'⟩ equal
    obtain ⟨rfl, bodies⟩ := Prod.mk.inj equal
    rw [Statement.eq_of_sorted body body' bodies]
  rw [sorted_toJson, sorted_toJson, Json.object.injEq] at same
  exact Context.eq_of_perm (.of_eq (List.map_injective_iff.mpr determines same))

theorem Program.eq_of_sorted {p q : Program} (same : p.toJson.sorted = q.toJson.sorted) : p = q := by
  rw [sorted_toJson, sorted_toJson] at same
  simp only [Json.object.injEq, List.cons.injEq, Prod.mk.injEq, Json.string.injEq, true_and,
    and_true] at same
  obtain ⟨body, context, name⟩ := same
  cases p
  cases q
  cases name
  cases Context.eq_of_sorted context
  cases Statement.eq_of_sorted _ _ body
  rfl

/-! ## Trees and texts -/

/-- What a host gets for a value tells statements apart, and programs. -/
structure Determines (render : Json → String) : Prop where
  statement : ∀ s t : Statement, render s.toJson = render t.toJson → s = t
  program : ∀ p q : Program, render p.toJson = render q.toJson → p = q

theorem determines_text (style : Style) : Determines (write style 0 "") where
  statement s t same :=
    Statement.eq_of_sorted s t (congrArg sorted (s.plain_toJson.eq_of_text t.plain_toJson same))
  program p q same :=
    Program.eq_of_sorted (congrArg sorted (p.plain_toJson.eq_of_text q.plain_toJson same))

theorem determines_sorted (style : Style) : Determines fun v => write style 0 "" v.sorted where
  statement s t same :=
    Statement.eq_of_sorted s t (s.plain_toJson.sorted.eq_of_text t.plain_toJson.sorted same)
  program p q same :=
    Program.eq_of_sorted (p.plain_toJson.sorted.eq_of_text q.plain_toJson.sorted same)

/-! ## Order -/

/-- An order for members at all levels. -/
structure Arrangement (arrange : Json → Json) : Prop where
  array : ∀ items, arrange (.array items) = .array (items.map arrange)
  object : ∀ members, ∃ arranged, arrange (.object members) = .object arranged ∧
    arranged.Perm (members.map fun member => (member.1, arrange member.2))
  child : ∀ v step, (arrange v).child? step = (v.child? step).map arrange

theorem arrangement_id : Arrangement id where
  array items := by simp
  object members := ⟨members, rfl, by simp⟩
  child v step := by simp

theorem arrangement_sorted : Arrangement sorted where
  array items := by rw [sorted, sortedItems_eq]
  object members := ⟨sortedMembers members, rfl, perm_sortedMembers members⟩
  child := child?_sorted

namespace Json

variable {arrange : Json → Json}

theorem itemChars_eq (first : Json) (items : List Json) :
    chars style depth first ++ itemChars style depth items =
      (',' :: breakChars style depth).intercalate ((first :: items).map (chars style depth)) := by
  induction items generalizing first with
  | nil => simp [itemChars, List.intercalate]
  | cons item items ih =>
    rw [itemChars, List.append_assoc, ih item]
    simp [List.intercalate]

/-- The items of an array are written one behind the other. -/
theorem chars_items (style : Style) (depth : Nat) (items : List Json) : ∃ before after,
    chars style depth (.array items) = before ++ (',' :: breakChars style (depth + 1)).intercalate
      (items.map (chars style (depth + 1))) ++ after := by
  cases items with
  | nil => exact ⟨['['], [']'], rfl⟩
  | cons item items =>
    refine ⟨'[' :: breakChars style (depth + 1), breakChars style depth ++ [']'], ?_⟩
    rw [← itemChars_eq]
    simp [chars]

theorem chars_further_member {members : List (String × Json)} {member : String × Json}
    (mem : member ∈ members) (style : Style) (depth : Nat) : ∃ before after,
      memberChars style depth members = before ++ chars style depth member.2 ++ after := by
  induction members with
  | nil => cases mem
  | cons first members ih =>
    obtain ⟨key, value⟩ := first
    rcases List.mem_cons.mp mem with rfl | mem
    · exact ⟨_, _, rfl⟩
    · obtain ⟨before, after, further⟩ := ih mem
      refine ⟨',' :: breakChars style depth ++ quotedChars key ++ style.colon.toList ++
        chars style depth value ++ before, after, ?_⟩
      rw [memberChars, further]
      simp

theorem chars_member {members : List (String × Json)} {member : String × Json}
    (mem : member ∈ members) (style : Style) (depth : Nat) : ∃ before after,
      chars style depth (.object members) = before ++ chars style (depth + 1) member.2 ++ after := by
  cases members with
  | nil => cases mem
  | cons first members =>
    obtain ⟨key, value⟩ := first
    rcases List.mem_cons.mp mem with rfl | mem
    · refine ⟨'\x7b' :: breakChars style (depth + 1) ++ quotedChars key ++ style.colon.toList,
        memberChars style (depth + 1) members ++ breakChars style depth ++ ['\x7d'], ?_⟩
      simp [chars]
    · obtain ⟨before, after, further⟩ := chars_further_member mem style (depth + 1)
      refine ⟨'\x7b' :: breakChars style (depth + 1) ++ quotedChars key ++ style.colon.toList ++
        chars style (depth + 1) value ++ before, after ++ breakChars style depth ++ ['\x7d'], ?_⟩
      rw [chars, further]
      simp

end Json

theorem lookup_bodies (entries : List (String × Statement)) (name : String) :
    (entries.map fun entry => (entry.1, entry.2.toJson)).lookup name =
      (entries.lookup name).map Statement.toJson := by
  induction entries with
  | nil => rfl
  | cons entry entries ih =>
    rw [List.map_cons, List.lookup_cons, List.lookup_cons, ih]
    cases name == entry.1 <;> rfl

/-- The steps from a statement to the one at a position below it. -/
def childSteps (i : Nat) : List Step := [.key "children", .index i]

/-- Nothing of a tree is missing in its value or out of order, and nothing is there twice. -/
structure Lists (arrange : Json → Json) : Prop where
  children : ∀ s : Statement, (arrange s.toJson).child? (.key "children") =
    some (.array (s.children.map fun child => arrange child.toJson))
  descendants : ∀ (s : Statement) (path : List Nat),
    (arrange s.toJson).descendant? (path.flatMap childSteps) =
      (s.descendant? path).map fun t => arrange t.toJson
  text : ∀ (s : Statement) style depth, ∃ before after, chars style depth (arrange s.toJson) =
    before ++ (',' :: breakChars style (depth + 2)).intercalate
      (s.children.map fun child => chars style (depth + 2) (arrange child.toJson)) ++ after
  context : ∀ p : Program, ∃ members,
    (arrange p.toJson).child? (.key "context") = some (.object members) ∧
      (members.map (·.1)).Perm p.context.names ∧ (members.map (·.1)).Nodup ∧
      ∀ name, members.lookup name = (p.instruction? name).map fun body => arrange body.toJson

namespace Arrangement

variable {arrange : Json → Json} (arrangement : Arrangement arrange)

include arrangement

theorem children (s : Statement) : (arrange s.toJson).child? (.key "children") =
    some (.array (s.children.map fun child => arrange child.toJson)) := by
  obtain ⟨label, children⟩ := s
  have unarranged : (Statement.node label children).toJson.child? (.key "children") =
      some (.array (children.map Statement.toJson)) := by
    simp [Statement.toJson, Statement.toJsonAll_eq, child?, lookup_cons]
  rw [arrangement.child, unarranged, Option.map_some, arrangement.array, List.map_map]
  rfl

theorem descendants (s : Statement) (path : List Nat) :
    (arrange s.toJson).descendant? (path.flatMap childSteps) =
      (s.descendant? path).map fun t => arrange t.toJson := by
  induction path generalizing s with
  | nil => rfl
  | cons i path ih =>
    rw [List.flatMap_cons, childSteps, List.cons_append, List.cons_append, List.nil_append,
      descendant?, arrangement.children, Option.bind_some, descendant?, Statement.descendant?]
    simp only [child?, List.getElem?_map]
    cases s.children[i]? with
    | none => rfl
    | some child => exact ih child

theorem text (s : Statement) (style : Style) (depth : Nat) : ∃ before after,
    chars style depth (arrange s.toJson) = before ++
      (',' :: breakChars style (depth + 2)).intercalate
        (s.children.map fun child => chars style (depth + 2) (arrange child.toJson)) ++ after := by
  obtain ⟨label, children⟩ := s
  obtain ⟨arranged, value, perm⟩ := arrangement.object
    [("label", label.toJson), ("children", .array (children.map Statement.toJson))]
  have mem : ("children", arrange (.array (children.map Statement.toJson))) ∈ arranged :=
    perm.mem_iff.mpr (by simp)
  obtain ⟨before, after, member⟩ := chars_member mem style depth
  rw [arrangement.array, List.map_map] at member
  obtain ⟨opening, closing, items⟩ :=
    chars_items style (depth + 1) (children.map (arrange ∘ Statement.toJson))
  refine ⟨before ++ opening, closing ++ after, ?_⟩
  rw [Statement.toJson, Statement.toJsonAll_eq, value, member, items]
  simp [Function.comp_def, Statement.children]

theorem context (p : Program) : ∃ members,
    (arrange p.toJson).child? (.key "context") = some (.object members) ∧
      (members.map (·.1)).Perm p.context.names ∧ (members.map (·.1)).Nodup ∧
      ∀ name, members.lookup name = (p.instruction? name).map fun body => arrange body.toJson := by
  obtain ⟨members, value, perm⟩ :=
    arrangement.object (p.context.entries.map fun entry => (entry.1, entry.2.toJson))
  have unarranged : p.toJson.child? (.key "context") = some p.context.toJson := by
    simp [Program.toJson, child?, lookup_cons]
  have names : (members.map (·.1)).Perm p.context.names := by
    simpa [List.map_map, Function.comp_def, Context.names] using perm.map (·.1)
  refine ⟨members, ?_, names, names.nodup_iff.mpr p.context.nodup_names, fun name => ?_⟩
  · rw [arrangement.child, unarranged, Option.map_some, Context.toJson, value]
  · have lookup := arrangement.child p.context.toJson (.key name)
    rw [Context.toJson, value] at lookup
    simp only [child?] at lookup
    rw [lookup, lookup_bodies, Option.map_map]
    rfl

theorem lists : Lists arrange :=
  ⟨arrangement.children, arrangement.descendants, arrangement.text, arrangement.context⟩

end Arrangement

/-! ## Main statement -/

/-- Statements and programs are told apart by each text that hosts get for them, and in each of these
texts the statements below a statement come in their order, and each instruction once. -/
theorem trees_read_off :
    Determines compact ∧ Determines spread ∧ (Determines fun v => v.sorted.spread) ∧
      Lists id ∧ Lists sorted :=
  ⟨determines_text .compact, determines_text .spread, determines_sorted .spread,
    arrangement_id.lists, arrangement_sorted.lists⟩

/-- An IF without ELSE is told from one with an empty ELSE, and a context may be filled in any order. -/
theorem trees_read_off_else :
    let yes := Statement.block [.call "move"]
    let p : Program := ⟨"p", .ofEntries [("b", yes), ("a", .empty)], yes⟩
    let q : Program := ⟨"p", .ofEntries [("a", .empty), ("b", yes)], yes⟩
    (Statement.node (.ifThen .random) [yes]).toJson.sorted.spread ≠
        (Statement.node (.ifElse .random) [yes, .empty]).toJson.sorted.spread ∧
      p.toJson.compact = q.toJson.compact ∧ p = q := by
  intro yes p q
  obtain ⟨texts, -, arranged, -, -⟩ := trees_read_off
  have same : p.toJson.compact = q.toJson.compact := by decide +kernel
  refine ⟨fun same => ?_, same, texts.program p q same⟩
  exact absurd (arranged.statement _ _ same) (by decide)

end RobotLang
