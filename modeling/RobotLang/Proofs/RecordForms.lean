import RobotLang.Interchange.Record
import RobotLang.Proofs.JsonOrder

/-!
The forms of records. What is written for a record is read back as that record, and so is the list of
its fields. Members that are no fields are passed over, also inside the place of a diagnostic. Other
forms are read as well, but whatever is read has one written form, so that writing once is enough.

Main statement: `records_read_back`.
-/

namespace RobotLang

open Interchange

variable {α : Type} {names : List String} {members wider : List (String × Json)} {k : String}

/-! ## Objects with more members -/

namespace Json

/-- The members and others, which have none of the names, in any order. -/
structure Widens (names : List String) (members wider : List (String × Json)) : Prop where
  distinct : (members.map (·.1)).Nodup
  others : ∃ others, (∀ member ∈ others, member.1 ∉ names) ∧ wider.Perm (members ++ others)

theorem lookup_eq_some_iff_mem (distinct : (members.map (·.1)).Nodup) {v : Json} :
    members.lookup k = some v ↔ (k, v) ∈ members := by
  induction members with
  | nil => simp
  | cons member members ih =>
    obtain ⟨key, value⟩ := member
    obtain ⟨new, rest⟩ := List.nodup_cons.mp distinct
    rw [lookup_cons, List.mem_cons, Prod.mk.injEq]
    by_cases here : k = key
    · subst here
      have absent : (k, v) ∉ members := fun mem => new (List.mem_map.mpr ⟨_, mem, rfl⟩)
      simp [absent, eq_comm]
    · simp [here, ih rest]

theorem lookup_of_perm {others : List (String × Json)} (distinct : (members.map (·.1)).Nodup)
    (perm : others.Perm members) : others.lookup k = members.lookup k := by
  have distinct' : (others.map (·.1)).Nodup := ((perm.map (·.1)).nodup_iff).mpr distinct
  ext v
  rw [lookup_eq_some_iff_mem distinct', lookup_eq_some_iff_mem distinct, perm.mem_iff]

/-- Members under other names can be left out. -/
theorem lookup_filter (named : k ∈ names) (members : List (String × Json)) :
    (members.filter (·.1 ∈ names)).lookup k = members.lookup k := by
  induction members with
  | nil => rfl
  | cons member members ih =>
    obtain ⟨key, value⟩ := member
    by_cases kept : key ∈ names
    · rw [List.filter_cons_of_pos (by simpa using kept), lookup_cons, lookup_cons, ih]
    · have other : k ≠ key := fun same => kept (same ▸ named)
      rw [List.filter_cons_of_neg (by simpa using kept), lookup_cons, if_neg other, ih]

theorem Widens.lookup (widens : Widens names members wider) (named : k ∈ names) :
    wider.lookup k = members.lookup k := by
  obtain ⟨distinct, others, foreign, perm⟩ := widens
  have dropped : others.filter (·.1 ∈ names) = [] := by
    rw [List.filter_eq_nil_iff]
    simpa using foreign
  have kept : (wider.filter (·.1 ∈ names)).Perm (members.filter (·.1 ∈ names)) := by
    simpa [List.filter_append, dropped] using perm.filter (·.1 ∈ names)
  have distinct : ((members.filter (·.1 ∈ names)).map (·.1)).Nodup :=
    distinct.sublist (List.filter_sublist.map _)
  rw [← lookup_filter named wider, lookup_of_perm distinct kept, lookup_filter named]

/-- An object as the list of its values. -/
def listed : Json → Json
  | .object members => .array (members.map (·.2))
  | value => value

end Json

/-! ## Written forms and others -/

/-- What is written is read back, and what is read has one written form. -/
structure Exchanges (Fits : α → Prop) (write : α → Json) (read? : Json → Option α) : Prop where
  written : ∀ x, Fits x → read? (write x) = some x
  canonical : ∀ v x, read? v = some x → Fits x ∧ read? (write x) = some x
  settled : ∀ v w, (read? v).map write = some w → (read? w).map write = some w

/-- The list of the fields is read back too, and members under names that are no fields are passed
over. -/
structure ExchangesFields (names : List String) (Fits : α → Prop) (write : α → Json)
    (read? : Json → Option α) : Prop extends Exchanges Fits write read? where
  listed : ∀ x, Fits x → read? (write x).listed = some x
  widened : ∀ members wider, Json.Widens names members wider →
    read? (.object wider) = read? (.object members)

theorem Exchanges.of {Fits : α → Prop} {write : α → Json} {read? : Json → Option α}
    (written : ∀ x, Fits x → read? (write x) = some x) (fits : ∀ v x, read? v = some x → Fits x) :
    Exchanges Fits write read? where
  written := written
  canonical v x h := ⟨fits v x h, written x (fits v x h)⟩
  settled v w h := by
    obtain ⟨x, read, rfl⟩ := Option.map_eq_some_iff.mp h
    rw [written x (fits v x read), Option.map_some]

theorem exchanges_name {name : α → String} {ofName? : String → Option α}
    (named : ∀ x, ofName? (name x) = some x) :
    Exchanges (fun _ => True) (fun x => .string (name x)) (readName? ofName?) :=
  .of (fun x _ => named x) fun _ _ _ => trivial

theorem Condition.ofName?_name (c : Condition) : ofName? c.name = some c := by cases c <;> decide +kernel

theorem Kind.ofName?_name (kind : Kind) : ofName? kind.name = some kind := by cases kind <;> rfl

theorem TokenClass.ofName?_name (c : TokenClass) : ofName? c.name = some c := by cases c <;> rfl

theorem ErrorKind.ofName?_name (kind : ErrorKind) : ofName? kind.name = some kind := by
  cases kind <;> rfl

/-! ## Places -/

namespace Span

/-- The coordinates fit sixty-four bits. -/
structure Fits (s : Span) : Prop where
  line : s.line < UInt64.size
  column : s.column < UInt64.size
  offset : s.offset < UInt64.size

def fieldNames : List String := ["line", "column", "offset"]

theorem readCoordinate?_eq_some_iff {v : Json} {n : Nat} :
    readCoordinate? v = some n ↔ v = .natural n ∧ n < UInt64.size := by
  cases v with
  | natural m =>
    simp only [readCoordinate?, Option.ite_none_right_eq_some, Option.some.injEq, Json.natural.injEq]
    exact ⟨fun ⟨small, same⟩ => ⟨same, same ▸ small⟩, fun ⟨same, small⟩ => ⟨same ▸ small, same⟩⟩
  | _ => simp [readCoordinate?]

theorem ofCoordinates?_eq_some_iff {line column offset : Json} {s : Span} :
    ofCoordinates? line column offset = some s ↔
      s.Fits ∧ line = .natural s.line ∧ column = .natural s.column ∧ offset = .natural s.offset := by
  obtain ⟨l, c, o⟩ := s
  simp only [ofCoordinates?, Option.bind_eq_bind, Option.pure_def, Option.bind_eq_some_iff,
    readCoordinate?_eq_some_iff, Option.some.injEq, Span.mk.injEq]
  constructor
  · rintro ⟨_, ⟨rfl, line⟩, _, ⟨rfl, column⟩, _, ⟨rfl, offset⟩, rfl, rfl, rfl⟩
    exact ⟨⟨line, column, offset⟩, rfl, rfl, rfl⟩
  · rintro ⟨⟨line, column, offset⟩, rfl, rfl, rfl⟩
    exact ⟨l, ⟨rfl, line⟩, c, ⟨rfl, column⟩, o, ⟨rfl, offset⟩, rfl, rfl, rfl⟩

theorem ofJson?_toJson {s : Span} (fits : s.Fits) : ofJson? s.toJson = some s :=
  ofCoordinates?_eq_some_iff.mpr ⟨fits, rfl, rfl, rfl⟩

theorem ofJson?_listed {s : Span} (fits : s.Fits) : ofJson? s.toJson.listed = some s :=
  ofCoordinates?_eq_some_iff.mpr ⟨fits, rfl, rfl, rfl⟩

theorem fits_of_ofJson? {v : Json} {s : Span} (h : ofJson? v = some s) : s.Fits := by
  unfold ofJson? at h
  split at h
  · simp only [Option.bind_eq_bind, Option.bind_eq_some_iff] at h
    obtain ⟨_, -, _, -, _, -, h⟩ := h
    exact (ofCoordinates?_eq_some_iff.mp h).1
  · exact (ofCoordinates?_eq_some_iff.mp h).1
  · cases h

theorem ofJson?_widened (widens : Json.Widens fieldNames members wider) :
    ofJson? (.object wider) = ofJson? (.object members) := by
  have line := widens.lookup (k := "line") (by simp [fieldNames])
  have column := widens.lookup (k := "column") (by simp [fieldNames])
  have offset := widens.lookup (k := "offset") (by simp [fieldNames])
  simp only [ofJson?, Json.member?, line, column, offset]

theorem exchanges : ExchangesFields fieldNames Fits toJson ofJson? where
  toExchanges := .of (fun _ => ofJson?_toJson) fun _ _ => fits_of_ofJson?
  listed _ := ofJson?_listed
  widened _ _ := ofJson?_widened

end Span

/-! ## Labels -/

namespace Label

def fieldNames : List String := ["kind", "condition", "instruction"]

theorem readCondition?_toJson (c : Condition) : readCondition? c.toJson = some c := c.ofName?_name

theorem ofJson?_toJson (label : Label) : ofJson? label.toJson = some label := by
  cases label <;>
    simp [toJson, ofJson?, kind, Json.member?, Json.lookup_cons, Kind.toJson, readText?,
      Kind.ofName?_name, ofFields?, readCondition?_toJson]

theorem ofJson?_listed (label : Label) : ofJson? label.toJson.listed = some label := by
  cases label <;>
    simp [toJson, ofJson?, kind, Json.listed, Kind.toJson, readText?, Kind.ofName?_name, ofFields?,
      readCondition?_toJson]

theorem ofJson?_widened (widens : Json.Widens fieldNames members wider) :
    ofJson? (.object wider) = ofJson? (.object members) := by
  have kind := widens.lookup (k := "kind") (by simp [fieldNames])
  have condition := widens.lookup (k := "condition") (by simp [fieldNames])
  have instruction := widens.lookup (k := "instruction") (by simp [fieldNames])
  have fields (kind : Kind) :
      ofFields? kind (Json.member? wider) = ofFields? kind (Json.member? members) := by
    cases kind <;> simp only [ofFields?, Json.member?, condition, instruction]
  simp only [ofJson?, fields]
  simp only [Json.member?, kind]

theorem exchanges : ExchangesFields fieldNames (fun _ => True) toJson ofJson? where
  toExchanges := .of (fun label _ => ofJson?_toJson label) fun _ _ _ => trivial
  listed label _ := ofJson?_listed label
  widened _ _ := ofJson?_widened

end Label

/-! ## Diagnostics -/

namespace Diagnostic

def fieldNames : List String := ["kind", "message", "span"]

def Fits (d : Diagnostic) : Prop := ∀ s ∈ d.span, s.Fits

theorem readSpan?_toJson {span : Option Span} (fits : ∀ s ∈ span, s.Fits) :
    readSpan? ((span.map Span.toJson).getD .null) = some span := by
  cases span with
  | none => rfl
  | some s =>
    show (Span.ofJson? s.toJson).map some = some (some s)
    rw [Span.ofJson?_toJson (fits s rfl), Option.map_some]

theorem fits_of_readSpan? {v : Json} {span : Option Span} (h : readSpan? v = some span) :
    ∀ s ∈ span, s.Fits := by
  unfold readSpan? at h
  split at h
  · cases h
    simp
  · obtain ⟨s, read, rfl⟩ := Option.map_eq_some_iff.mp h
    simpa using Span.fits_of_ofJson? read

theorem ofJson?_toJson {d : Diagnostic} (fits : d.Fits) : ofJson? d.toJson = some d := by
  have kind : ErrorKind.ofJson? d.kind.toJson = some d.kind := d.kind.ofName?_name
  simp [toJson, ofJson?, Json.member?, List.lookup_cons, kind, readText?, readSpan?_toJson fits]

theorem ofJson?_listed {d : Diagnostic} (fits : d.Fits) : ofJson? d.toJson.listed = some d := by
  have kind : ErrorKind.ofJson? d.kind.toJson = some d.kind := d.kind.ofName?_name
  simp [toJson, ofJson?, Json.listed, kind, readText?, readSpan?_toJson fits]

theorem fits_of_ofJson? {v : Json} {d : Diagnostic} (h : ofJson? v = some d) : d.Fits := by
  unfold ofJson? at h
  split at h
  · simp only [Option.bind_eq_bind, Option.pure_def, Option.bind_eq_some_iff, Option.some.injEq] at h
    obtain ⟨_, -, _, -, _, -, _, -, span, read, rfl⟩ := h
    exact fits_of_readSpan? read
  · simp only [Option.bind_eq_bind, Option.pure_def, Option.bind_eq_some_iff, Option.some.injEq] at h
    obtain ⟨_, -, _, -, span, read, rfl⟩ := h
    exact fits_of_readSpan? read
  · cases h

theorem ofJson?_widened (widens : Json.Widens fieldNames members wider) :
    ofJson? (.object wider) = ofJson? (.object members) := by
  have kind := widens.lookup (k := "kind") (by simp [fieldNames])
  have message := widens.lookup (k := "message") (by simp [fieldNames])
  have span := widens.lookup (k := "span") (by simp [fieldNames])
  simp only [ofJson?, Json.member?, kind, message, span]

theorem exchanges : ExchangesFields fieldNames Fits toJson ofJson? where
  toExchanges := .of (fun _ => ofJson?_toJson) fun _ _ => fits_of_ofJson?
  listed _ := ofJson?_listed
  widened _ _ := ofJson?_widened

/-- In both forms of a diagnostic its place may be given by the other object as well. -/
structure SamePlace (v w : Json) : Prop where
  object : ∀ before after, ofJson? (.object (before ++ ("span", v) :: after)) =
    ofJson? (.object (before ++ ("span", w) :: after))
  list : ∀ kind message, ofJson? (.array [kind, message, v]) = ofJson? (.array [kind, message, w])

theorem lookup_span {v : Json} (before after : List (String × Json)) (other : k ≠ "span") :
    (before ++ ("span", v) :: after).lookup k = (before ++ after).lookup k := by
  have differs : (k == "span") = false := by simpa using other
  simp [List.lookup_append, List.lookup_cons, differs]

theorem SamePlace.of {v w : Json} (place : readSpan? v = readSpan? w) : SamePlace v w := by
  refine ⟨fun before after => ?_, fun kind message => ?_⟩
  · have spans : readSpan? (((before ++ ("span", v) :: after).lookup "span").getD .null) =
        readSpan? (((before ++ ("span", w) :: after).lookup "span").getD .null) := by
      cases earlier : before.lookup "span" <;> simp [List.lookup_append, earlier, place]
    have others {k : String} (other : k ≠ "span") :
        (before ++ ("span", v) :: after).lookup k = (before ++ ("span", w) :: after).lookup k := by
      rw [lookup_span before after other, lookup_span before after other]
    have kind := others (k := "kind") (by decide)
    have message := others (k := "message") (by decide)
    simp only [ofJson?, Json.member?, spans, kind, message]
  · simp only [ofJson?, place]

theorem samePlace_widened (widens : Json.Widens Span.fieldNames members wider) :
    SamePlace (.object wider) (.object members) :=
  .of (congrArg (Option.map some) (Span.ofJson?_widened widens))

theorem samePlace_listed {s : Span} (fits : s.Fits) : SamePlace s.toJson.listed s.toJson := by
  refine .of (congrArg (Option.map some) ?_)
  rw [Span.ofJson?_listed fits, Span.ofJson?_toJson fits]

end Diagnostic

/-! ## Main statement -/

/-- What is written for a name or a record is read back. A record is also read from the list of its
fields, and with members that are no fields, in its place too. Whatever else is read, writing it
once gives a form that writing again keeps. -/
theorem records_read_back :
    Exchanges (fun _ => True) Condition.toJson Condition.ofJson? ∧
      Exchanges (fun _ => True) Kind.toJson Kind.ofJson? ∧
      Exchanges (fun _ => True) TokenClass.toJson TokenClass.ofJson? ∧
      Exchanges (fun _ => True) ErrorKind.toJson ErrorKind.ofJson? ∧
      ExchangesFields Span.fieldNames Span.Fits Span.toJson Span.ofJson? ∧
      ExchangesFields Label.fieldNames (fun _ => True) Label.toJson Label.ofJson? ∧
      ExchangesFields Diagnostic.fieldNames Diagnostic.Fits Diagnostic.toJson Diagnostic.ofJson? ∧
      (∀ members wider, Json.Widens Span.fieldNames members wider →
        Diagnostic.SamePlace (.object wider) (.object members)) ∧
      ∀ s : Span, s.Fits → Diagnostic.SamePlace s.toJson.listed s.toJson :=
  ⟨exchanges_name Condition.ofName?_name, exchanges_name Kind.ofName?_name,
    exchanges_name TokenClass.ofName?_name, exchanges_name ErrorKind.ofName?_name, Span.exchanges,
    Label.exchanges, Diagnostic.exchanges, fun _ _ => Diagnostic.samePlace_widened,
    fun _ => Diagnostic.samePlace_listed⟩

/-- A place with the last line that there can be, alone, as a list, and in a diagnostic with a member
more; and a diagnostic in another form than the written one. -/
theorem records_read_back_last_line :
    let last : Span := ⟨18446744073709551615, 1, 7⟩
    let d : Diagnostic := ⟨.nameMismatch, "\"a\"\n", some last⟩
    let other : Json := .object [("span", .array [.natural 1, .natural 2, .natural 3]),
      ("kind", .object [("name_mismatch", .null)]), ("colour", .null), ("message", .string "m")]
    Span.ofJson? last.toJson = some last ∧
      Span.ofJson? last.toJson.listed = some last ∧
      Diagnostic.ofJson? d.toJson = some d ∧
      Diagnostic.ofJson? (.object [("kind", .string "name_mismatch"), ("message", .string "m"),
        ("span", .object [("note", .null), ("line", .natural 4), ("column", .natural 1),
          ("offset", .natural 9)])]) =
        Diagnostic.ofJson? (.object [("kind", .string "name_mismatch"), ("message", .string "m"),
          ("span", .object [("line", .natural 4), ("column", .natural 1), ("offset", .natural 9)])]) ∧
      (Diagnostic.ofJson? other).map Diagnostic.toJson =
        some (⟨.nameMismatch, "m", some ⟨1, 2, 3⟩⟩ : Diagnostic).toJson ∧
      Diagnostic.ofJson? (⟨.nameMismatch, "m", some ⟨1, 2, 3⟩⟩ : Diagnostic).toJson =
        some ⟨.nameMismatch, "m", some ⟨1, 2, 3⟩⟩ := by
  intro last d other
  obtain ⟨-, -, -, -, places, -, diagnostics, widened, -⟩ := records_read_back
  have fits : last.Fits := ⟨by decide, by decide, by decide⟩
  have read : Diagnostic.ofJson? other = some ⟨.nameMismatch, "m", some ⟨1, 2, 3⟩⟩ := by
    decide +kernel
  refine ⟨places.written last fits, places.listed last fits, ?_, ?_, ?_, ?_⟩
  · exact diagnostics.written d fun s same => Option.mem_some.mp same ▸ fits
  · refine (widened [("line", .natural 4), ("column", .natural 1), ("offset", .natural 9)] _
      ⟨by decide, [("note", .null)], by decide, ?_⟩).object
        [("kind", .string "name_mismatch"), ("message", .string "m")] []
    exact @List.perm_append_comm _ [("note", Json.null)] _
  · rw [read, Option.map_some]
  · exact (diagnostics.canonical other _ read).2

end RobotLang
