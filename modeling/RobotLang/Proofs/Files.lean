import RobotLang.CommandLine.Directory

/-!
Files after one of them has been written. A path leads where it led before, and what is found there is
what was there, but for the file that was written (`find_rewritten`). Writing what a file holds already
changes nothing (`write_again`). A text that replaces another one is read where that one was
(`read_write`).
-/

namespace RobotLang.CommandLine.Directory

variable {d : Directory} {path other name : String} {bytes old : List UInt8}
  {location next : Location}

/-! ## Following a path -/

/-- A file at a location is a file of the directory. -/
def Location.StandsIn (d : Directory) : Location → Prop
  | .file name bytes => d.entries.lookup name = some (.file bytes)
  | _ => True

theorem Location.StandsIn.follow {part : String} (stands : location.StandsIn d)
    (h : d.follow location part = .ok next) : next.StandsIn d := by
  unfold Directory.follow at h
  split at h
  · cases h
  split at h
  · cases h
    exact stands
  split at h
  · split at h <;> cases h <;> trivial
  split at h
  · cases h
  split at h
  · split at h <;> cases h
    · assumption
    · trivial
  · cases h

theorem Location.StandsIn.walk {parts : List String} (stands : location.StandsIn d)
    (h : parts.foldlM d.follow location = .ok next) : next.StandsIn d := by
  induction parts generalizing location with
  | nil =>
    cases h
    exact stands
  | cons part parts ih =>
    rw [List.foldlM_cons] at h
    cases followed : d.follow location part with
    | error failure =>
      rw [followed] at h
      cases h
    | ok between =>
      rw [followed] at h
      exact ih (stands.follow followed) h

/-- Where a path begins, and the parts that are followed from there. -/
theorem find_eq (d : Directory) (path : String) :
    d.find path =
      if path.utf8ByteSize > pathLimit then .error .nameTooLong
      else match ((parts path.toList).map String.ofList).foldlM d.follow
          (if path.startsWith "/" then Location.outside else .here) with
        | .ok (.file name bytes) => .ok (name, bytes)
        | .ok _ => .error .isFolder
        | .error failure => .error failure := by
  by_cases long : path.utf8ByteSize > pathLimit
  · simp only [find, if_pos long]
    rfl
  · simp only [find, if_neg long]
    cases List.foldlM d.follow _ _ with
    | error => rfl
    | ok location => cases location <;> rfl

theorem lookup_of_find (h : d.find path = .ok (name, bytes)) :
    d.entries.lookup name = some (.file bytes) := by
  rw [find_eq] at h
  split at h
  · cases h
  split at h
  · rename_i walked
    cases h
    have start : (if path.startsWith "/" then Location.outside else .here).StandsIn d := by
      split <;> trivial
    exact start.walk walked
  · cases h
  · cases h

/-! ## Writing a file -/

/-- The directory with these bytes in the files of that name. -/
def rewritten (d : Directory) (name : String) (bytes : List UInt8) : Directory :=
  ⟨d.entries.map fun entry => if entry.1 = name then (name, .file bytes) else entry⟩

theorem write_eq (text : String) (h : d.find path = .ok (name, old)) :
    d.write path text = d.rewritten name (Text.encode text) := by
  simp only [write, h, rewritten]

theorem lookup_rewritten (d : Directory) (name other : String) (bytes : List UInt8) :
    (d.rewritten name bytes).entries.lookup other =
      if other = name then (d.entries.lookup name).map fun _ => .file bytes
      else d.entries.lookup other := by
  obtain ⟨entries⟩ := d
  simp only [rewritten]
  induction entries with
  | nil => simp
  | cons entry entries ih =>
    obtain ⟨key, value⟩ := entry
    rw [List.map_cons]
    by_cases rewrites : key = name
    · subst rewrites
      by_cases same : other = key
      · simp [same]
      · have differs : (other == key) = false := by simpa using same
        simp only [if_true, List.lookup_cons, differs, ih, if_neg same]
    · have differs : (name == key) = false := by simpa using Ne.symm rewrites
      by_cases here : other = key
      · subst here
        simp [rewrites]
      · have elsewhere : (other == key) = false := by simpa using here
        simp only [if_neg rewrites, List.lookup_cons, elsewhere, differs, ih]

/-- What is at the location after the files of that name have been written. -/
def Location.rewritten (name : String) (bytes : List UInt8) : Location → Location
  | .file other old => if other = name then .file name bytes else .file other old
  | location => location

theorem follow_rewritten (there : d.entries.lookup name = some (.file old)) (bytes : List UInt8)
    (location : Location) (part : String) :
    (d.rewritten name bytes).follow (location.rewritten name bytes) part =
      (d.follow location part).map (Location.rewritten name bytes) := by
  cases location with
  | file other held =>
    simp only [Location.rewritten]
    split <;> rfl
  | here =>
    simp only [Location.rewritten, follow]
    split
    · rfl
    split
    · rfl
    split
    · rfl
    rw [lookup_rewritten]
    by_cases same : part = name
    · simp [same, there, Except.map, Location.rewritten]
    · simp only [if_neg same]
      cases d.entries.lookup part with
      | none => rfl
      | some entry => cases entry <;> simp [Except.map, Location.rewritten, same]
  | below | outside =>
    simp only [Location.rewritten, follow]
    split
    · rfl
    split
    · rfl
    split <;> rfl

theorem walk_rewritten (there : d.entries.lookup name = some (.file old)) (bytes : List UInt8)
    (parts : List String) (location : Location) :
    parts.foldlM (d.rewritten name bytes).follow (location.rewritten name bytes) =
      (parts.foldlM d.follow location).map (Location.rewritten name bytes) := by
  induction parts generalizing location with
  | nil => rfl
  | cons part parts ih =>
    rw [List.foldlM_cons, List.foldlM_cons, follow_rewritten there]
    cases d.follow location part with
    | error => rfl
    | ok between => exact ih between

/-- The file of that name holds the new bytes, and every other path leads to what it led to. -/
theorem find_rewritten (there : d.entries.lookup name = some (.file old)) (bytes : List UInt8)
    (path : String) :
    (d.rewritten name bytes).find path =
      (d.find path).map fun found => if found.1 = name then (name, bytes) else found := by
  have walked := walk_rewritten there bytes ((parts path.toList).map String.ofList)
    (if path.startsWith "/" then Location.outside else .here)
  have start : (if path.startsWith "/" then Location.outside else .here).rewritten name bytes =
      if path.startsWith "/" then Location.outside else .here := by
    split <;> rfl
  rw [start] at walked
  rw [find_eq, find_eq, walked]
  split
  · rfl
  · cases List.foldlM d.follow _ _ with
    | error => rfl
    | ok location =>
      cases location with
      | file other held => by_cases same : other = name <;> simp [Except.map, Location.rewritten, same]
      | _ => rfl

theorem bytes_of_find (h : d.find path = .ok (name, old)) (also : d.find other = .ok (name, bytes)) :
    bytes = old := by
  have same := lookup_of_find also
  rw [lookup_of_find h] at same
  cases same
  rfl

/-! ## Reading texts -/

/-- No text is read at the path: nothing is there, or a folder, or bytes that are no text. -/
inductive Unreadable (d : Directory) (path : String) : Prop where
  | missing (failure : ReadFailure) (nothing : d.find path = .error failure)
      (noFolder : failure ≠ .isFolder)
  | folder (isFolder : d.find path = .error .isFolder)
  | notText (name : String) (bytes : List UInt8) (found : d.find path = .ok (name, bytes))
      (noText : Text.decode? bytes = none)

theorem read_eq (d : Directory) (path : String) :
    d.read path = match d.find path with
      | .ok (_, bytes) => match Text.decode? bytes with
        | some text => .ok text
        | none => .error .notText
      | .error failure => .error failure := by
  unfold read
  cases d.find path with
  | error => rfl
  | ok found =>
    obtain ⟨name, bytes⟩ := found
    simp only [bind, Except.bind]
    cases Text.decode? bytes <;> rfl

/-- A file of the directory can have this name. -/
def IsName (name : String) : Prop :=
  name ∉ ["", ".", ".."] ∧ name.startsWith "/" = false ∧ parts name.toList = [name.toList] ∧
    name.utf8ByteSize ≤ nameLimit

instance (name : String) : Decidable (IsName name) := inferInstanceAs (Decidable (_ ∧ _))

theorem find_of_isName (isName : IsName name) (held : d.entries.lookup name = some (.file bytes)) :
    d.find name = .ok (name, bytes) := by
  obtain ⟨ordinary, relative, single, short⟩ := isName
  simp only [List.mem_cons, List.not_mem_nil, or_false, not_or] at ordinary
  have followed : d.follow .here name = .ok (.file name bytes) := by
    simp [follow, ordinary, Nat.not_lt.mpr short, held]
  have whole : ¬ name.utf8ByteSize > pathLimit :=
    Nat.not_lt.mpr (Nat.le_trans short (by decide))
  rw [find_eq, if_neg whole, relative, single]
  simp [followed, Bind.bind, Except.bind, Pure.pure, Except.pure]

/-- A file is read by its name. -/
theorem read_of_isName {text : String} (isName : IsName name)
    (held : d.entries.lookup name = some (.file (Text.encode text))) : d.read name = .ok text := by
  simp [read_eq, find_of_isName isName held, Text.decode?_encode]

theorem find_of_read {text : String} (h : d.read path = .ok text) :
    ∃ name bytes, d.find path = .ok (name, bytes) ∧ Text.decode? bytes = some text := by
  rw [read_eq] at h
  cases found : d.find path with
  | error => simp [found] at h
  | ok entry =>
    obtain ⟨name, bytes⟩ := entry
    cases decoded : Text.decode? bytes with
    | none => simp [found, decoded] at h
    | some => exact ⟨name, bytes, rfl, by simpa [found, decoded] using h⟩

theorem unreadable_iff : d.Unreadable path ↔ ∃ failure, d.read path = .error failure := by
  rw [read_eq]
  constructor
  · rintro (⟨failure, nothing, -⟩ | isFolder | ⟨name, bytes, found, noText⟩)
    · exact ⟨failure, by rw [nothing]⟩
    · exact ⟨.isFolder, by rw [isFolder]⟩
    · exact ⟨.notText, by simp only [found, noText]⟩
  · rintro ⟨failure, h⟩
    cases found : d.find path with
    | error reason =>
      by_cases isFolder : reason = .isFolder
      · exact .folder (by rw [found, isFolder])
      · exact .missing reason found isFolder
    | ok entry =>
      obtain ⟨name, bytes⟩ := entry
      cases decoded : Text.decode? bytes with
      | none => exact .notText name bytes found decoded
      | some => simp [found, decoded] at h

/-- A text that replaces another one is read where that one was, and nowhere else. -/
theorem read_write {text : String} (h : d.read path = .ok text) (new other : String) :
    (d.write path new).read other = d.read other ∨
      d.read other = .ok text ∧ (d.write path new).read other = .ok new := by
  obtain ⟨name, old, found, decoded⟩ := find_of_read h
  rw [write_eq new found, read_eq (d.rewritten ..), find_rewritten (lookup_of_find found), read_eq d]
  cases there : d.find other with
  | error => exact .inl rfl
  | ok entry =>
    obtain ⟨key, bytes⟩ := entry
    by_cases same : key = name
    · subst same
      simp [Except.map, bytes_of_find found there, decoded, Text.decode?_encode]
    · simp [Except.map, same]

theorem read_written {text : String} (h : d.read path = .ok text) (new : String) :
    (d.write path new).read path = .ok new := by
  obtain ⟨name, old, found, -⟩ := find_of_read h
  rw [write_eq new found, read_eq, find_rewritten (lookup_of_find found), found]
  simp [Except.map, Text.decode?_encode]

theorem write_again {text : String} (h : d.read path = .ok text) (new : String) :
    (d.write path new).write path new = d.write path new := by
  obtain ⟨name, old, found, -⟩ := find_of_read h
  have again : (d.write path new).find path = .ok (name, Text.encode new) := by
    rw [write_eq new found, find_rewritten (lookup_of_find found), found]
    simp [Except.map]
  rw [write_eq new again, write_eq new found, rewritten, rewritten, List.map_map]
  congr 1
  refine List.map_congr_left fun entry _ => ?_
  by_cases same : entry.1 = name <;> simp [same]

end RobotLang.CommandLine.Directory
