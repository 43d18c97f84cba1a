import Mathlib.Data.List.Basic
import RobotLang.Proofs.JsonOrder

/-!
JSON values and their texts. A text in either style is that of one value only
(`Plain.eq_of_text`): what a value begins with tells which kind of value it is, and nothing that is
written for a value goes on as another one, if no digit follows.
-/

namespace RobotLang.Json

variable {v w : Json} {style : Style} {depth : Nat} {rest rest' : List Char}
  {items others : List Json} {members entries : List (String × Json)}

/-! ## Strings -/

def ofHexDigit (c : Char) : Nat := ((List.range 16).map Nat.digitChar).idxOf c

theorem ofHexDigit_digitChar : ∀ {n : Nat}, n < 16 → ofHexDigit (Nat.digitChar n) = n := by decide

/-- The character that comes first in an escaped text, and what follows it. -/
def unescape? : List Char → Option (Char × List Char)
  | '\\' :: 'b' :: cs => some ('\x08', cs)
  | '\\' :: 't' :: cs => some ('\t', cs)
  | '\\' :: 'n' :: cs => some ('\n', cs)
  | '\\' :: 'f' :: cs => some ('\x0c', cs)
  | '\\' :: 'r' :: cs => some ('\r', cs)
  | '\\' :: 'u' :: _ :: _ :: high :: low :: cs =>
    some (Char.ofNat (16 * ofHexDigit high + ofHexDigit low), cs)
  | '\\' :: c :: cs => some (c, cs)
  | c :: cs => some (c, cs)
  | [] => none

theorem unescape?_escape (c : Char) (cs : List Char) : unescape? (escape c ++ cs) = some (c, cs) := by
  unfold escape
  -- Seven characters have an escape of their own.
  iterate 7
    split
    · subst_vars
      rfl
  split
  · have high := ofHexDigit_digitChar (n := c.toNat / 16) (by omega)
    have low := ofHexDigit_digitChar (n := c.toNat % 16) (by omega)
    simp only [Text.hexPair, List.cons_append, List.nil_append, unescape?, high, low,
      Nat.div_add_mod, Char.ofNat_toNat]
  · rename_i plain _ _ _ _ _ _
    simp [unescape?, plain]

theorem escape_ne_quote (c : Char) (cs ds : List Char) : escape c ++ cs ≠ '"' :: ds := by
  unfold escape
  repeat' split
  all_goals simp [*]

theorem escaped_append_inj {cs ds : List Char}
    (same : cs.flatMap escape ++ '"' :: rest = ds.flatMap escape ++ '"' :: rest') :
    cs = ds ∧ rest = rest' := by
  induction cs generalizing ds with
  | nil =>
    cases ds with
    | nil => simpa using same
    | cons d ds =>
      rw [List.flatMap_cons, List.append_assoc] at same
      exact absurd same.symm (escape_ne_quote d _ _)
  | cons c cs ih =>
    rw [List.flatMap_cons, List.append_assoc] at same
    cases ds with
    | nil => exact absurd same (escape_ne_quote c _ _)
    | cons d ds =>
      rw [List.flatMap_cons, List.append_assoc] at same
      have first := congrArg unescape? same
      rw [unescape?_escape, unescape?_escape, Option.some.injEq, Prod.mk.injEq] at first
      obtain ⟨rfl, after⟩ := first
      obtain ⟨rfl, behind⟩ := ih after
      exact ⟨rfl, behind⟩

/-! ## Numbers -/

/-- No number goes on with the characters. -/
def NoDigit (cs : List Char) : Prop := ∀ c ∈ cs.head?, c.isDigit = false

theorem isDigit_of_mem_repr {n : Nat} {c : Char} (mem : c ∈ n.repr.toList) : c.isDigit = true := by
  rw [Nat.toList_repr] at mem
  exact Nat.isDigit_of_mem_toDigits (by decide) (by decide) mem

theorem takeWhile_isDigit {n : Nat} (ends : NoDigit rest) :
    (n.repr.toList ++ rest).takeWhile Char.isDigit = n.repr.toList := by
  have behind : rest.takeWhile Char.isDigit = [] := by
    cases rest with
    | nil => rfl
    | cons c cs => exact List.takeWhile_cons_of_neg (by simpa using ends c rfl)
  rw [List.takeWhile_append_of_pos fun c mem => isDigit_of_mem_repr mem, behind, List.append_nil]

theorem repr_append_inj {m n : Nat} (ends : NoDigit rest) (ends' : NoDigit rest')
    (same : m.repr.toList ++ rest = n.repr.toList ++ rest') : m = n ∧ rest = rest' := by
  have digits := congrArg (List.takeWhile Char.isDigit) same
  rw [takeWhile_isDigit ends, takeWhile_isDigit ends'] at digits
  have behind := same
  rw [digits] at behind
  refine ⟨?_, List.append_cancel_left behind⟩
  rw [Nat.toList_repr, Nat.toList_repr] at digits
  calc
    m = Nat.ofDigitChars 10 (Nat.toDigits 10 m) 0 := Nat.ofDigitChars_ten_toDigits.symm
    _ = Nat.ofDigitChars 10 (Nat.toDigits 10 n) 0 := by rw [digits]
    _ = n := Nat.ofDigitChars_ten_toDigits

/-! ## The characters of a value -/

def quotedChars (s : String) : List Char := '"' :: s.toList.flatMap escape ++ ['"']

def breakChars (style : Style) (depth : Nat) : List Char := (style.lineBreak depth).toList

mutual

/-- The characters that are written for a value inside so many brackets. -/
def chars (style : Style) (depth : Nat) : Json → List Char
  | .null => "null".toList
  | .bool true => "true".toList
  | .bool false => "false".toList
  | .natural n => n.repr.toList
  | .number spelling => spelling.toList
  | .string s => quotedChars s
  | .array [] => ['[', ']']
  | .array (item :: items) =>
    '[' :: breakChars style (depth + 1) ++ chars style (depth + 1) item ++
      itemChars style (depth + 1) items ++ breakChars style depth ++ [']']
  | .object [] => ['\x7b', '\x7d']
  | .object ((key, value) :: members) =>
    '\x7b' :: breakChars style (depth + 1) ++ quotedChars key ++ style.colon.toList ++
      chars style (depth + 1) value ++ memberChars style (depth + 1) members ++
      breakChars style depth ++ ['\x7d']

/-- The characters of the items behind the first one. -/
def itemChars (style : Style) (depth : Nat) : List Json → List Char
  | [] => []
  | item :: items =>
    ',' :: breakChars style depth ++ chars style depth item ++ itemChars style depth items

def memberChars (style : Style) (depth : Nat) : List (String × Json) → List Char
  | [] => []
  | (key, value) :: members =>
    ',' :: breakChars style depth ++ quotedChars key ++ style.colon.toList ++
      chars style depth value ++ memberChars style depth members

end

theorem toList_writeString (out s : String) :
    (writeString out s).toList = out.toList ++ quotedChars s := by
  simp [writeString, quotedChars]

mutual

theorem toList_write (style : Style) : ∀ (depth : Nat) (out : String) (v : Json),
    (write style depth out v).toList = out.toList ++ chars style depth v
  | depth, out, .null | depth, out, .natural _ | depth, out, .number _
  | depth, out, .bool true | depth, out, .bool false | depth, out, .array [] | depth, out, .object [] => by
    simp [chars, write]
  | depth, out, .string s => toList_writeString out s
  | depth, out, .array (item :: items) => by
    simp [chars, write, breakChars, toList_writeItems style _ _ items, toList_write style _ _ item]
  | depth, out, .object ((key, value) :: members) => by
    simp [chars, write, breakChars, toList_writeMembers style _ _ members,
      toList_write style _ _ value, toList_writeString]

theorem toList_writeItems (style : Style) : ∀ (depth : Nat) (out : String) (items : List Json),
    (writeItems style depth out items).toList = out.toList ++ itemChars style depth items
  | depth, out, [] => by simp [writeItems, itemChars]
  | depth, out, item :: items => by
    simp [writeItems, itemChars, breakChars, toList_writeItems style _ _ items,
      toList_write style _ _ item]

theorem toList_writeMembers (style : Style) :
    ∀ (depth : Nat) (out : String) (members : List (String × Json)),
      (writeMembers style depth out members).toList =
        out.toList ++ memberChars style depth members
  | depth, out, [] => by simp [writeMembers, memberChars]
  | depth, out, (key, value) :: members => by
    simp [writeMembers, memberChars, breakChars, toList_writeMembers style _ _ members,
      toList_write style _ _ value, toList_writeString]

end

/-! ## Telling values apart -/

theorem noDigit_cons {c : Char} {cs : List Char} : NoDigit (c :: cs) ↔ c.isDigit = false := by
  simp [NoDigit]

theorem quoted_append_inj {s t : String} (same : quotedChars s ++ rest = quotedChars t ++ rest') :
    s = t ∧ rest = rest' := by
  simp only [quotedChars, List.cons_append, List.append_assoc, List.nil_append, List.cons.injEq,
    true_and] at same
  obtain ⟨text, behind⟩ := escaped_append_inj same
  exact ⟨String.toList_inj.mp text, behind⟩

/-- The kinds of values that the first character of a text tells apart. -/
inductive Form where
  | null
  | bool
  | number
  | string
  | array
  | object

def form : Json → Form
  | .null => .null
  | .bool _ => .bool
  | .natural _ | .number _ => .number
  | .string _ => .string
  | .array _ => .array
  | .object _ => .object

def Form.ofFirst? (c : Char) : Option Form :=
  if c = 'n' then some .null
  else if c = 't' ∨ c = 'f' then some .bool
  else if c.isDigit then some .number
  else if c = '"' then some .string
  else if c = '[' then some .array
  else if c = '\x7b' then some .object
  else none

theorem Plain.first (plain : v.Plain) (style : Style) (depth : Nat) :
    ∃ c cs, chars style depth v = c :: cs ∧ Form.ofFirst? c = some v.form := by
  cases plain with
  | null => exact ⟨_, _, rfl, rfl⟩
  | bool b => cases b <;> exact ⟨_, _, rfl, rfl⟩
  | natural n =>
    rw [chars]
    cases digits : n.repr.toList with
    | nil => simp [Nat.toList_repr] at digits
    | cons c cs =>
      have digit : c.isDigit = true := isDigit_of_mem_repr (digits ▸ List.mem_cons_self)
      have other : c ≠ 'n' ∧ c ≠ 't' ∧ c ≠ 'f' := by
        refine ⟨?_, ?_, ?_⟩ <;> rintro rfl <;> cases digit
      exact ⟨c, cs, rfl, by simp [Form.ofFirst?, other, digit, form]⟩
  | string s => exact ⟨_, _, rfl, rfl⟩
  | @array items => cases items <;> exact ⟨_, _, rfl, rfl⟩
  | @object members => cases members <;> exact ⟨_, _, rfl, rfl⟩

theorem form_eq (plain : v.Plain) (plain' : w.Plain)
    (same : chars style depth v ++ rest = chars style depth w ++ rest') : v.form = w.form := by
  obtain ⟨c, cs, text, first⟩ := plain.first style depth
  obtain ⟨c', cs', text', first'⟩ := plain'.first style depth
  rw [text, text'] at same
  obtain ⟨rfl, -⟩ := List.cons.inj same
  exact Option.some.inj (first.symm.trans first')

/-- Brackets that are closed at once hold no value. -/
theorem Plain.ne_closing (plain : v.Plain) (cs : List Char) :
    breakChars style depth ++ (chars style depth v ++ cs) ≠ ']' :: rest := by
  cases style with
  | compact =>
    obtain ⟨c, _, text, first⟩ := plain.first .compact depth
    intro same
    rw [text] at same
    obtain ⟨rfl, -⟩ := List.cons.inj same
    cases first
  | spread => simp [breakChars, Style.lineBreak]

/-- No text of another value begins with the text of this one. -/
def Tells (style : Style) (v : Json) : Prop :=
  ∀ ⦃w depth rest rest'⦄, w.Plain → NoDigit rest → NoDigit rest' →
    chars style depth v ++ rest = chars style depth w ++ rest' → v = w ∧ rest = rest'

section

variable {bracket : Char} {outer : Nat}

theorem noDigit_closing (closes : bracket = ']' ∨ bracket = '\x7d') :
    NoDigit (breakChars style outer ++ bracket :: rest) := by
  rcases closes with rfl | rfl <;> cases style <;> simp [breakChars, Style.lineBreak, NoDigit]

theorem closing_ne_comma (closes : bracket = ']' ∨ bracket = '\x7d') (cs : List Char) :
    breakChars style outer ++ bracket :: rest ≠ ',' :: cs := by
  rcases closes with rfl | rfl <;> cases style <;> simp [breakChars, Style.lineBreak]

theorem noDigit_items (closes : bracket = ']' ∨ bracket = '\x7d') (items : List Json) :
    NoDigit (itemChars style depth items ++ (breakChars style outer ++ bracket :: rest)) := by
  cases items with
  | nil => exact noDigit_closing closes
  | cons => exact noDigit_cons.mpr rfl

theorem noDigit_members (closes : bracket = ']' ∨ bracket = '\x7d')
    (members : List (String × Json)) :
    NoDigit (memberChars style depth members ++ (breakChars style outer ++ bracket :: rest)) := by
  cases members with
  | nil => exact noDigit_closing closes
  | cons => exact noDigit_cons.mpr rfl

theorem items_append_inj (closes : bracket = ']' ∨ bracket = '\x7d')
    (tells : ∀ item ∈ items, Tells style item) (plain : ∀ item ∈ others, item.Plain)
    (same : itemChars style depth items ++ (breakChars style outer ++ bracket :: rest) =
      itemChars style depth others ++ (breakChars style outer ++ bracket :: rest')) :
    items = others ∧ rest = rest' := by
  induction items generalizing others with
  | nil =>
    cases others with
    | nil => simpa [itemChars] using same
    | cons other others => exact absurd same (closing_ne_comma closes _)
  | cons item items ih =>
    cases others with
    | nil => exact absurd same.symm (closing_ne_comma closes _)
    | cons other others =>
      obtain ⟨first, further⟩ := List.forall_mem_cons.mp tells
      obtain ⟨plainFirst, plainFurther⟩ := List.forall_mem_cons.mp plain
      simp only [itemChars, List.cons_append, List.append_assoc, List.cons.injEq,
        List.append_cancel_left_eq, true_and] at same
      obtain ⟨rfl, behind⟩ :=
        first plainFirst (noDigit_items closes items) (noDigit_items closes others) same
      obtain ⟨rfl, after⟩ := ih further plainFurther behind
      exact ⟨rfl, after⟩

theorem members_append_inj (closes : bracket = ']' ∨ bracket = '\x7d')
    (tells : ∀ member ∈ members, Tells style member.2) (plain : ∀ member ∈ entries, member.2.Plain)
    (same : memberChars style depth members ++ (breakChars style outer ++ bracket :: rest) =
      memberChars style depth entries ++ (breakChars style outer ++ bracket :: rest')) :
    members = entries ∧ rest = rest' := by
  induction members generalizing entries with
  | nil =>
    cases entries with
    | nil => simpa [memberChars] using same
    | cons entry entries => exact absurd same (closing_ne_comma closes _)
  | cons member members ih =>
    cases entries with
    | nil => exact absurd same.symm (closing_ne_comma closes _)
    | cons entry entries =>
      obtain ⟨first, further⟩ := List.forall_mem_cons.mp tells
      obtain ⟨plainFirst, plainFurther⟩ := List.forall_mem_cons.mp plain
      obtain ⟨key, value⟩ := member
      obtain ⟨key', value'⟩ := entry
      simp only [memberChars, List.cons_append, List.append_assoc, List.cons.injEq,
        List.append_cancel_left_eq, true_and] at same
      obtain ⟨rfl, values⟩ := quoted_append_inj same
      obtain ⟨rfl, behind⟩ := first plainFirst (noDigit_members closes members)
        (noDigit_members closes entries) (List.append_cancel_left values)
      obtain ⟨rfl, after⟩ := ih further plainFurther behind
      exact ⟨rfl, after⟩

theorem array_append_inj (tells : ∀ item ∈ items, Tells style item)
    (plain : ∀ item ∈ items, item.Plain) (plain' : ∀ item ∈ others, item.Plain)
    (same : chars style depth (.array items) ++ rest = chars style depth (.array others) ++ rest') :
    items = others ∧ rest = rest' := by
  cases items with
  | nil =>
    cases others with
    | nil => simpa [chars] using same
    | cons other others =>
      simp only [chars, List.cons_append, List.append_assoc, List.nil_append, List.cons.injEq,
        true_and] at same
      exact absurd same.symm ((plain' other List.mem_cons_self).ne_closing _)
  | cons item items =>
    cases others with
    | nil =>
      simp only [chars, List.cons_append, List.append_assoc, List.nil_append, List.cons.injEq,
        true_and] at same
      exact absurd same ((plain item List.mem_cons_self).ne_closing _)
    | cons other others =>
      obtain ⟨first, further⟩ := List.forall_mem_cons.mp tells
      obtain ⟨plainFirst, plainFurther⟩ := List.forall_mem_cons.mp plain'
      simp only [chars, List.cons_append, List.append_assoc, List.cons.injEq,
        List.append_cancel_left_eq, List.nil_append, true_and] at same
      obtain ⟨rfl, behind⟩ := first plainFirst (noDigit_items (.inl rfl) items)
        (noDigit_items (.inl rfl) others) same
      obtain ⟨rfl, after⟩ := items_append_inj (.inl rfl) further plainFurther behind
      exact ⟨rfl, after⟩

theorem object_append_inj (tells : ∀ member ∈ members, Tells style member.2)
    (plain : ∀ member ∈ entries, member.2.Plain)
    (same : chars style depth (.object members) ++ rest =
      chars style depth (.object entries) ++ rest') : members = entries ∧ rest = rest' := by
  -- A member begins with the quote of its key, so nothing has to be known of its value.
  have notClosed (depth : Nat) (s : String) (cs ds : List Char) :
      breakChars style depth ++ (quotedChars s ++ cs) ≠ '\x7d' :: ds := by
    cases style <;> simp [breakChars, Style.lineBreak, quotedChars]
  cases members with
  | nil =>
    cases entries with
    | nil => simpa [chars] using same
    | cons entry entries =>
      simp only [chars, List.cons_append, List.append_assoc, List.nil_append, List.cons.injEq,
        true_and] at same
      exact absurd same.symm (notClosed _ _ _ _)
  | cons member members =>
    cases entries with
    | nil =>
      simp only [chars, List.cons_append, List.append_assoc, List.nil_append, List.cons.injEq,
        true_and] at same
      exact absurd same (notClosed _ _ _ _)
    | cons entry entries =>
      obtain ⟨first, further⟩ := List.forall_mem_cons.mp tells
      obtain ⟨plainFirst, plainFurther⟩ := List.forall_mem_cons.mp plain
      obtain ⟨key, value⟩ := member
      obtain ⟨key', value'⟩ := entry
      simp only [chars, List.cons_append, List.append_assoc, List.cons.injEq,
        List.append_cancel_left_eq, List.nil_append, true_and] at same
      obtain ⟨rfl, values⟩ := quoted_append_inj same
      obtain ⟨rfl, behind⟩ := first plainFirst (noDigit_members (.inr rfl) members)
        (noDigit_members (.inr rfl) entries) (List.append_cancel_left values)
      obtain ⟨rfl, after⟩ := members_append_inj (.inr rfl) further plainFurther behind
      exact ⟨rfl, after⟩

end

theorem Plain.tells (plain : v.Plain) (style : Style) : Tells style v := by
  induction plain with
  | null =>
    intro w depth rest rest' plain' _ _ same
    cases plain' with
    | null => exact ⟨rfl, List.append_cancel_left same⟩
    | _ => cases form_eq .null (by constructor <;> assumption) same
  | bool b =>
    intro w depth rest rest' plain' _ _ same
    have form := form_eq (.bool b) plain' same
    cases plain' with
    | bool b' => cases b <;> cases b' <;> simp_all [chars]
    | _ => cases form
  | natural n =>
    intro w depth rest rest' plain' ends ends' same
    have form := form_eq (.natural n) plain' same
    cases plain' with
    | natural n' =>
      obtain ⟨rfl, behind⟩ := repr_append_inj ends ends' same
      exact ⟨rfl, behind⟩
    | _ => cases form
  | string s =>
    intro w depth rest rest' plain' _ _ same
    have form := form_eq (.string s) plain' same
    cases plain' with
    | string s' =>
      obtain ⟨rfl, behind⟩ := quoted_append_inj same
      exact ⟨rfl, behind⟩
    | _ => cases form
  | @array items inside ih =>
    intro w depth rest rest' plain' ends ends' same
    have form := form_eq (.array inside) plain' same
    cases plain' with
    | array inside' =>
      obtain ⟨rfl, behind⟩ := array_append_inj ih inside inside' same
      exact ⟨rfl, behind⟩
    | _ => cases form
  | @object members distinct inside ih =>
    intro w depth rest rest' plain' ends ends' same
    have form := form_eq (.object distinct inside) plain' same
    cases plain' with
    | object _ inside' =>
      obtain ⟨rfl, behind⟩ := object_append_inj ih inside' same
      exact ⟨rfl, behind⟩
    | _ => cases form

/-- A text in either style is that of one value only. -/
theorem Plain.eq_of_text (plain : v.Plain) (plain' : w.Plain)
    (same : write style depth "" v = write style depth "" w) : v = w := by
  have text := congrArg String.toList same
  rw [toList_write, toList_write, String.toList_empty, List.nil_append, List.nil_append] at text
  have nothing : NoDigit [] := by simp [NoDigit]
  have whole : chars style depth v ++ [] = chars style depth w ++ [] := by simpa using text
  exact (plain.tells style plain' nothing nothing whole).1

end RobotLang.Json
