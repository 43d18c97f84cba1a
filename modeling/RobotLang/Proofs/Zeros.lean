import RobotLang.Embedding.Service
import RobotLang.Proofs.QuotedWords
import RobotLang.Proofs.RoundTrip

/-!
Texts that a zero can close. In UTF-8 only the zero character has a byte that is zero, so bytes up to
the first zero are the text up to its first zero character (`takeWhile_encode`). What is written for a
text without zeros has none: neither a canonical text (`zeroFree_text`) nor a fingerprint
(`zeroFree_sha256`) nor the message of an error (`zeroFree_error`).
-/

namespace RobotLang

open RobotLang.Parser Statement

/-- No character of the text is zero. -/
def ZeroFree (text : String) : Prop := '\x00' ∉ text.toList

instance (text : String) : Decidable (ZeroFree text) :=
  inferInstanceAs (Decidable (_ ∉ text.toList))

variable {s t word : String} {indent : Nat}

@[simp] theorem zeroFree_append : ZeroFree (s ++ t) ↔ ZeroFree s ∧ ZeroFree t := by
  simp [ZeroFree]

@[simp] theorem zeroFree_toString : ZeroFree (toString s) ↔ ZeroFree s := Iff.rfl

theorem zeroFree_around {before after : String} (line : ZeroFree (before ++ after))
    (free : ZeroFree word) : ZeroFree s!"{before}{word}{after}" := by
  obtain ⟨first, last⟩ := zeroFree_append.mp line
  exact zeroFree_append.mpr ⟨zeroFree_append.mpr ⟨first, free⟩, last⟩

theorem ZeroFree.of_subset (free : ZeroFree s) (inside : t.toList ⊆ s.toList) : ZeroFree t :=
  fun zero => free (inside zero)

theorem Embedding.withoutZeros_eq (free : ZeroFree t) : withoutZeros t = t := by
  have kept : t.toList.filter (· ≠ '\x00') = t.toList := by
    rw [List.filter_eq_self]
    intro c mem
    simpa using fun zero : c = '\x00' => free (zero ▸ mem)
  rw [withoutZeros, kept, String.ofList_toList]

/-! ## Bytes -/

namespace Text

theorem encode_eq (text : String) : encode text = text.toList.flatMap String.utf8EncodeChar := by
  rw [encode, String.toUTF8_eq_toByteArray, ← String.ofList_toList (s := text),
    String.toByteArray_ofList, List.utf8Encode]
  simp

theorem ofNat_ne_zero {n : Nat} (positive : 0 < n) (small : n < 256) : 0 ≠ UInt8.ofNat n := by
  intro zero
  have same := congrArg UInt8.toNat zero
  rw [UInt8.toNat_ofNat', Nat.mod_eq_of_lt small] at same
  exact absurd same.symm (Nat.ne_of_gt positive)

theorem zero_not_mem_utf8EncodeChar {c : Char} (other : c ≠ '\x00') : 0 ∉ String.utf8EncodeChar c := by
  have positive : 0 < c.val.toNat := by
    refine Nat.pos_of_ne_zero fun zero => other ?_
    exact Char.ext (UInt32.toNat_inj.mp zero)
  simp only [String.utf8EncodeChar]
  split
  · simpa only [List.mem_singleton] using ofNat_ne_zero positive (by omega)
  -- Characters of two, three or four bytes: each byte has its marker added to what it carries.
  split
  all_goals try split
  all_goals
    simp only [List.mem_cons, List.not_mem_nil, or_false, not_or]
    repeat' apply And.intro
    all_goals exact ofNat_ne_zero (by omega) (by omega)

/-- The text up to its first zero. -/
def beforeZero (text : String) : String := String.ofList (text.toList.takeWhile (· ≠ '\x00'))

theorem takeWhile_encode (text : String) :
    (encode text).takeWhile (· ≠ 0) = encode (beforeZero text) := by
  rw [encode_eq, encode_eq, beforeZero, String.toList_ofList]
  induction text.toList with
  | nil => rfl
  | cons c cs ih =>
    rw [List.flatMap_cons, List.takeWhile_cons]
    by_cases zero : c = '\x00'
    · subst zero
      rfl
    · have kept : ∀ b ∈ String.utf8EncodeChar c, decide (b ≠ 0) = true := by
        intro b mem
        simpa using fun same : b = 0 => zero_not_mem_utf8EncodeChar zero (same ▸ mem)
      rw [List.takeWhile_append_of_pos kept, ih]
      simp [zero]

theorem zeroFree_beforeZero (text : String) : ZeroFree (beforeZero text) := by
  intro zero
  rw [beforeZero, String.toList_ofList] at zero
  exact absurd (List.all_eq_true.mp List.all_takeWhile _ zero) (by decide)

theorem beforeZero_eq (free : ZeroFree t) : beforeZero t = t := by
  have kept : ∀ c ∈ t.toList, decide (c ≠ '\x00') = true := by
    intro c mem
    simpa using fun zero : c = '\x00' => free (zero ▸ mem)
  have whole : (t.toList ++ []).takeWhile (· ≠ '\x00') = t.toList ++ [] :=
    List.takeWhile_append_of_pos kept
  rw [List.append_nil] at whole
  rw [beforeZero, whole, String.ofList_toList]

end Text

/-! ## Canonical texts -/

theorem zeroFree_of_inWordChars (inside : InWordChars word) : ZeroFree word := by
  intro zero
  exact absurd (List.all_eq_true.mp inside.2 _ zero) (by decide)

theorem zeroFree_identifier (named : isIdentifier word = true) : ZeroFree word :=
  zeroFree_of_inWordChars (inWordChars_identifier named)

namespace Layout

theorem zeroFree_writeLine (indent : Nat) (line : ZeroFree s) (free : ZeroFree t) :
    ZeroFree (writeLine indent s t) := by
  have spaces : ZeroFree (spaces indent) := by simp [ZeroFree, Layout.spaces]
  have newline : ZeroFree "\n" := by decide
  simp only [writeLine, zeroFree_append, line, free, spaces, newline, and_self]

theorem zeroFree_ifLine (c : Condition) : ZeroFree s!"IF {c.spelling} THEN" :=
  zeroFree_around (by decide) (zeroFree_of_inWordChars (inWordChars_spelling c))

theorem zeroFree_elseLine : ZeroFree "ELSE" := by decide

theorem zeroFree_whileLine (c : Condition) : ZeroFree s!"WHILE {c.spelling} DO" :=
  zeroFree_around (by decide) (zeroFree_of_inWordChars (inWordChars_spelling c))

theorem zeroFree_writeAll {body : List Statement} (shaped : Body body) (indent : Nat) {out : String}
    (free : ZeroFree out) : ZeroFree (writeAll indent out body) := by
  induction shaped generalizing indent out with
  | nil => exact free
  | call named _ ih => exact ih indent (zeroFree_writeLine indent (zeroFree_identifier named) free)
  | @ifThen c _ _ _ _ inside ih =>
    have block := inside (indent + indentWidth) (zeroFree_writeLine indent (zeroFree_ifLine c) free)
    exact ih indent (zeroFree_writeLine indent (by decide) block)
  | @ifElse c _ _ _ _ _ _ insideYes insideNo ih =>
    have first := insideYes (indent + indentWidth) (zeroFree_writeLine indent (zeroFree_ifLine c) free)
    have second := insideNo (indent + indentWidth) (zeroFree_writeLine indent zeroFree_elseLine first)
    exact ih indent (zeroFree_writeLine indent (by decide) second)
  | @whileDo c _ _ _ _ inside ih =>
    have block :=
      inside (indent + indentWidth) (zeroFree_writeLine indent (zeroFree_whileLine c) free)
    exact ih indent (zeroFree_writeLine indent (by decide) block)

theorem zeroFree_write {b : Statement} (isBlock : b.kind = .block) (shaped : b.WellShaped)
    (indent : Nat) {out : String} (free : ZeroFree out) : ZeroFree (write indent out b) := by
  rw [eq_block_of_kind isBlock] at shaped ⊢
  rw [Statement.block, write]
  exact zeroFree_writeAll (wellShaped_block_iff.mp shaped) indent free

theorem zeroFree_writeDeclaration {d : String × Statement} {limit : Option Nat}
    (fit : DeclarationAt limit d) {out : String} (free : ZeroFree out) :
    ZeroFree (writeDeclaration out d) := by
  obtain ⟨instruction, _⟩ := d
  obtain ⟨named, body, rfl, shaped, -⟩ := fit
  have name := zeroFree_identifier (isInstructionName_iff.mp named).1
  have isLine : ZeroFree s!"INSTRUCTION {instruction} IS" := zeroFree_around (by decide) name
  have endLine : ZeroFree s!"END {instruction}" := zeroFree_append.mpr ⟨by decide, name⟩
  have head := zeroFree_writeAll shaped (2 * indentWidth) (zeroFree_writeLine indentWidth isLine free)
  exact zeroFree_append.mpr ⟨zeroFree_writeLine indentWidth endLine head, by decide⟩

theorem zeroFree_writeDeclarations {ds : List (String × Statement)} {limit : Option Nat}
    (fit : ∀ d ∈ ds, DeclarationAt limit d) {out : String} (free : ZeroFree out) :
    ZeroFree (ds.foldl writeDeclaration out) := by
  induction ds generalizing out with
  | nil => exact free
  | cons d ds ih =>
    obtain ⟨first, after⟩ := List.forall_mem_cons.mp fit
    exact ih after (zeroFree_writeDeclaration first free)

end Layout

theorem zeroFree_text {p : Program} (formed : p.WellFormed) : ZeroFree p.text := by
  have name := zeroFree_identifier formed.name
  have programLine : ZeroFree s!"PROGRAM {p.name} IS" := zeroFree_around (by decide) name
  have endLine : ZeroFree s!"END {p.name}" := zeroFree_append.mpr ⟨by decide, name⟩
  have written := formed.written
  have head : ZeroFree (Layout.writeLine 0 s!"PROGRAM {p.name} IS" "" ++ "\n") :=
    zeroFree_append.mpr ⟨Layout.zeroFree_writeLine 0 programLine (by decide), by decide⟩
  have declarations := Layout.zeroFree_writeDeclarations written.fit head
  have beginLine : ZeroFree "BEGIN" := by decide
  have body := Layout.zeroFree_write formed.body.1 formed.body.2 Layout.indentWidth
    (Layout.zeroFree_writeLine 0 beginLine declarations)
  exact Layout.zeroFree_writeLine 0 endLine body

/-! ## Fingerprints and messages -/

theorem zeroFree_sha256 (bytes : List UInt8) : ZeroFree (Digest.sha256 bytes) := by
  intro zero
  rw [Digest.sha256, String.toList_ofList] at zero
  obtain ⟨w, -, zero⟩ := List.mem_flatMap.mp zero
  obtain ⟨b, -, zero⟩ := List.mem_flatMap.mp zero
  simp [Text.hexPair] at zero

@[simp] theorem zeroFree_repr (n : Nat) : ZeroFree n.repr := by
  intro zero
  rw [Nat.toList_repr] at zero
  exact absurd (Nat.isDigit_of_mem_toDigits (by decide) (by decide) zero) (by decide)

@[simp] theorem zeroFree_natural (n : Nat) : ZeroFree (toString n) := zeroFree_repr n

@[simp] theorem zeroFree_keyword (k : Keyword) : ZeroFree k.text := by
  cases k <;> decide

@[simp] theorem zeroFree_named (named : Named) : ZeroFree named.display := by
  cases named <;> decide

theorem zeroFree_found {found : Found} (quoted : ∀ word ∈ found.words, ZeroFree word) :
    ZeroFree found.display := by
  cases found with
  | word text =>
    have free : ZeroFree text := quoted text List.mem_cons_self
    dsimp only [Found.display]
    simp only [zeroFree_append, zeroFree_toString, free]
    decide +kernel
  | endOfInput => decide

theorem zeroFree_place {place : KeywordPlace} (quoted : ∀ word ∈ place.words, ZeroFree word) :
    ZeroFree place.display := by
  cases place with
  | afterProgramName name | afterInstructionName name | afterInstructionBody name =>
    have free : ZeroFree name := quoted name List.mem_cons_self
    dsimp only [KeywordPlace.display]
    simp only [zeroFree_append, zeroFree_toString, free, and_true]
    decide +kernel
  | programStart | beforeProgramBody | afterProgramBody => decide
  | afterCondition construct | afterBlock construct | afterEnd construct =>
    cases construct <;> decide +kernel

theorem zeroFree_message {f : Fault} (quoted : ∀ word ∈ f.words, ZeroFree word) :
    ZeroFree f.message := by
  cases f with
  | keywordDue place found =>
    obtain ⟨before, last⟩ := List.forall_mem_append.mp quoted
    dsimp only [Fault.message]
    simp only [zeroFree_append, zeroFree_toString, zeroFree_keyword, zeroFree_place before,
      zeroFree_found last, and_true]
    decide +kernel
  | conditionDue construct found | nameDue named found | branchEndDue found | statementDue found
    | afterStatements found =>
    dsimp only [Fault.message]
    simp only [zeroFree_append, zeroFree_toString, zeroFree_keyword, zeroFree_named,
      zeroFree_found quoted, and_true, true_and]
    decide +kernel
  | notACondition word | primitiveName word | duplicateInstruction word =>
    have free : ZeroFree word := quoted word List.mem_cons_self
    dsimp only [Fault.message]
    simp only [zeroFree_append, zeroFree_toString, free, and_true]
    decide +kernel
  | closingName named name found | afterProgram name found =>
    obtain ⟨first, last⟩ := List.forall_mem_cons.mp quoted
    dsimp only [Fault.message]
    simp only [zeroFree_append, zeroFree_toString, zeroFree_named, first, zeroFree_found last,
      and_true, true_and]
    decide +kernel
  | nestedDeeperThan limit =>
    dsimp only [Fault.message]
    simp only [zeroFree_append, zeroFree_toString, zeroFree_natural, and_true]
    decide +kernel

theorem zeroFree_display {e : ParseError} (quoted : ∀ word ∈ e.fault.words, ZeroFree word) :
    ZeroFree e.diagnostic.display := by
  have kind : ZeroFree e.fault.kind.display := by cases e.fault.kind <;> decide
  have message := zeroFree_message quoted
  obtain ⟨fault, span⟩ := e
  cases span with
  | none =>
    dsimp only [ParseError.diagnostic, Diagnostic.display]
    simp only [zeroFree_append, zeroFree_toString, kind, message, and_true]
    decide +kernel
  | some span =>
    dsimp only [ParseError.diagnostic, Diagnostic.display, Span.display]
    simp only [zeroFree_append, zeroFree_toString, zeroFree_natural, kind, message, and_true, true_and]
    decide +kernel

theorem zeroFree_error {e : ParseError} (free : ZeroFree t) (h : Program.parse t = .error e) :
    ZeroFree e.diagnostic.display := by
  refine zeroFree_display fun word quoted => ?_
  have mem : word ∈ (tokenize t).texts := quoted_of_program h quoted
  rw [TokenQueue.texts, TokenQueue.toList, List.map_append, List.mem_append] at mem
  rcases mem with token | ending
  · obtain ⟨token, mem, rfl⟩ := List.mem_map.mp token
    exact free.of_subset (chars_of_tokenize mem)
  · have isEnd : word = endOfInput := List.mem_singleton.mp ending
    rw [isEnd]
    decide +kernel

end RobotLang
