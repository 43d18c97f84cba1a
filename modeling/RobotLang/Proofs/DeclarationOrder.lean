import Mathlib.Data.List.Perm.Basic
import RobotLang.Embedding.Service
import RobotLang.Proofs.FrontEnds
import RobotLang.Proofs.JsonOrder
import RobotLang.Proofs.LexicalGrammar
import RobotLang.Proofs.Reachable

/-!
The order of declarations does not matter. What a program is written with can be told from its words
(`WrittenWith.unique`), and in another order it is still what this program is written with
(`WrittenWith.perm`). A text can be cut into its declarations, each with the gap behind it; since words
and gaps fit together at any of these cuts, the parts may be put in any order (`Piece.fits_parts`). And
programs are listed in the order of the bytes of names, whatever order they were read in.

Main statement: `declaration_order_irrelevant`.
-/

namespace RobotLang

open RobotLang.Parser Statement

variable {limit : Option Nat} {p : Program} {declarations permuted : List (String × Statement)}

/-! ## The words of a program -/

namespace Parser

theorem WrittenWith.perm (written : WrittenWith limit p declarations)
    (perm : permuted.Perm declarations) : WrittenWith limit p permuted where
  named := written.named
  fit d mem := written.fit d (perm.mem_iff.mp mem)
  distinct := (perm.map (·.1)).nodup_iff.mpr written.distinct
  declares := written.declares.trans perm.symm
  body := written.body

theorem program_of_texts {q left : TokenQueue} (written : WrittenWith limit p declarations)
    (ended : left.atEnd = true)
    (texts : q.texts = programWords p.name declarations p.body ++ left.texts) :
    ∃ rest, program limit q = ⟨.complete p.name declarations.reverse p.body, .ok p, rest⟩ := by
  obtain ⟨ts, rest, split, words⟩ := TokenQueue.split_of_prefix ⟨_, texts.symm⟩
    (endOfInput_not_mem_programWords written.named written.fit written.body)
  have behind : rest.texts = left.texts := by
    rw [TokenQueue.texts, split, List.map_append, words] at texts
    exact List.append_cancel_left texts
  have restEnded : rest.atEnd = true := by
    rwa [TokenQueue.atEnd, Token.isEnd, front_of_texts behind]
  exact ⟨rest, program_of_words written split words restEnded⟩

/-- Only one list of declarations has these words. -/
theorem WrittenWith.unique {others : List (String × Statement)}
    (written : WrittenWith limit p declarations) (other : WrittenWith limit p others)
    (same : programWords p.name others p.body = programWords p.name declarations p.body) :
    others = declarations := by
  have texts := TokenQueue.texts_ofTexts (programWords p.name declarations p.body)
  have ended : TokenQueue.empty.atEnd = true := rfl
  obtain ⟨rest, run⟩ := program_of_texts written ended texts
  rw [← same] at texts run
  obtain ⟨rest', run'⟩ := program_of_texts other ended texts
  rw [run] at run'
  simp only [Run.mk.injEq, ProgramState.complete.injEq, List.reverse_inj] at run'
  exact run'.1.2.1.symm

end Parser

/-! ## Putting parts of a text in another order -/

/-- Before what begins on the same line, a gap is a gap whatever follows. -/
theorem GapBefore.anywhere {following g : List Char} {c : Char} (gap : GapBefore following g)
    (first : following.head? = some c) (sameLine : c ≠ '\n') (other : List Char) :
    GapBefore other g := by
  induction gap with
  | nil => exact .nil
  | blank isBlank _ ih => exact .blank isBlank ih
  | @comment line g oneLine toLineEnd _ ih =>
    refine .comment oneLine ?_ ih
    cases g with
    | nil => exact absurd (toLineEnd c first) sameLine
    | cons d g => exact toLineEnd

namespace Piece

variable {ps qs tail : List Piece} {next : Piece}

theorem Fits.behind (fits : Fits (ps ++ qs)) : Fits qs := by
  induction ps with
  | nil => exact fits
  | cons p ps ih =>
    cases fits with
    | cons _ _ _ rest => exact ih rest

/-- What fits begins with a character that is in no gap. -/
theorem Fits.head (fits : Fits (next :: ps)) :
    ∃ c, (allChars (next :: ps)).head? = some c ∧ c ≠ '\n' := by
  cases fits with
  | cons isWord =>
    obtain ⟨c, more, spelled, notBlank, -⟩ := isWord.head
    refine ⟨c, by simp [allChars, chars, spelled], ?_⟩
    rintro rfl
    exact absurd notBlank (by decide)

/-- The pieces begin with a run of word characters. -/
def Opens (ps : List Piece) : Prop := ∃ next rest, ps = next :: rest ∧ InWordChars next.word

/-- The pieces fit before all others that begin with a run of word characters, and at the end of a
text. -/
def Joins (ps : List Piece) : Prop :=
  ∀ qs, Fits qs → (∀ q ∈ qs.head?, InWordChars q.word) → Fits (ps ++ qs)

theorem Joins.append (joins : Joins ps) (fits : Fits qs) (opens : Opens qs) : Fits (ps ++ qs) := by
  obtain ⟨next, rest, rfl, inside⟩ := opens
  exact joins _ fits (by simpa using inside)

theorem Joins.alone (joins : Joins ps) : Fits ps := by
  simpa using joins [] .nil (by simp)

/-- Whether pieces fit before a run of word characters does not depend on it. -/
theorem Fits.joins (fits : Fits (ps ++ tail)) (opens : Opens tail) : Joins ps := by
  intro qs fitsBehind inside
  obtain ⟨next, behind, rfl, begins⟩ := opens
  induction ps with
  | nil => exact fitsBehind
  | cons p ps ih =>
    cases fits with
    | cons isWord isGap apart rest =>
      have following : ∃ c, (allChars (ps ++ next :: behind)).head? = some c ∧ c ≠ '\n' := by
        cases ps with
        | nil => exact rest.head
        | cons => exact rest.head
      obtain ⟨c, first, sameLine⟩ := following
      refine .cons isWord (isGap.anywhere first sameLine _) (fun run n mem => ?_) (ih rest)
      cases ps with
      | nil => exact fun _ => apart run next rfl begins
      | cons p' ps => exact apart run n mem

end Piece

/-- A declaration and the pieces of a text that spell it. -/
structure Spelled where
  pieces : List Piece
  declaration : String × Statement
  words : pieces.map (·.word) = declarationWords declaration

namespace Spelled

variable {ps tail : List Piece} {parts : List Spelled}

def part (s : Spelled) : String := String.ofList (Piece.allChars s.pieces)

theorem opens (s : Spelled) : Piece.Opens s.pieces := by
  obtain ⟨pieces, d, words⟩ := s
  simp only [declarationWords, List.cons_append] at words
  obtain ⟨next, rest, rfl, isInstruction, -⟩ := List.map_eq_cons_iff.mp words
  exact ⟨next, rest, rfl, isInstruction ▸ inWordChars_keyword _⟩

theorem exists_parts {ds : List (String × Statement)}
    (words : ps.map (·.word) = ds.flatMap declarationWords) :
    ∃ parts : List Spelled, parts.map (·.declaration) = ds ∧ ps = parts.flatMap (·.pieces) := by
  induction ds generalizing ps with
  | nil =>
    cases List.map_eq_nil_iff.mp words
    exact ⟨[], rfl, rfl⟩
  | cons d ds ih =>
    rw [List.flatMap_cons] at words
    obtain ⟨first, rest, rfl, here, behind⟩ := List.map_eq_append_iff.mp words
    obtain ⟨parts, rfl, rfl⟩ := ih behind
    exact ⟨⟨first, d, here⟩ :: parts, rfl, rfl⟩

theorem opens_parts (parts : List Spelled) (opens : Piece.Opens tail) :
    Piece.Opens (parts.flatMap (·.pieces) ++ tail) := by
  cases parts with
  | nil => exact opens
  | cons s parts =>
    obtain ⟨next, rest, spelled, inside⟩ := s.opens
    exact ⟨next, rest ++ (parts.flatMap (·.pieces) ++ tail), by simp [spelled], inside⟩

theorem joins_parts (fits : Piece.Fits (parts.flatMap (·.pieces) ++ tail))
    (opens : Piece.Opens tail) : ∀ s ∈ parts, Piece.Joins s.pieces := by
  induction parts with
  | nil => simp
  | cons s parts ih =>
    rw [List.flatMap_cons, List.append_assoc] at fits
    exact List.forall_mem_cons.mpr ⟨fits.joins (opens_parts parts opens), ih fits.behind⟩

theorem fits_parts (joins : ∀ s ∈ parts, Piece.Joins s.pieces) (fits : Piece.Fits tail)
    (opens : Piece.Opens tail) : Piece.Fits (parts.flatMap (·.pieces) ++ tail) := by
  induction parts with
  | nil => exact fits
  | cons s parts ih =>
    obtain ⟨here, rest⟩ := List.forall_mem_cons.mp joins
    rw [List.flatMap_cons, List.append_assoc]
    exact here.append (ih rest) (opens_parts parts opens)

/-- The strings of the parts in another order are those of the parts in that order. -/
theorem exists_perm {strings : List String} (perm : strings.Perm (parts.map part)) :
    ∃ others : List Spelled, others.Perm parts ∧ strings = others.map part := by
  have spelled : List.Forall₂ (fun string s => string = part s) (parts.map part) parts :=
    List.forall₂_map_left_iff.mpr (List.forall₂_same.mpr fun _ _ => rfl)
  obtain ⟨others, same, perm⟩ := List.perm_comp_forall₂ perm spelled
  refine ⟨others, perm, ?_⟩
  rwa [← List.forall₂_map_right_iff, List.forall₂_eq_eq_eq] at same

end Spelled

theorem textWords_allChars {lead : List Char} {ps : List Piece}
    (isGap : GapBefore (Piece.allChars ps) lead) (fits : Piece.Fits ps) :
    textWords (String.ofList (lead ++ Piece.allChars ps)) = ps.map (·.word) := by
  have divides : (⟨lead, ps⟩ : Division).Divides (String.ofList (lead ++ Piece.allChars ps)).toList :=
    ⟨String.toList_ofList, isGap, fits⟩
  rw [textWords, divides.tokenize_eq, Piece.text_tokens]

theorem textWords_pieces {ps : List Piece} (fits : Piece.Fits ps) :
    textWords (String.ofList (Piece.allChars ps)) = ps.map (·.word) := by
  have words := textWords_allChars .nil fits
  rwa [List.nil_append] at words

theorem Spelled.words_part (s : Spelled) (joins : Piece.Joins s.pieces) :
    textWords s.part = declarationWords s.declaration := by
  rw [part, textWords_pieces joins.alone, s.words]

/-- A text that is cut behind its head and behind each of its declarations. -/
structure Cut where
  lead : List Char
  head : List Piece
  parts : List Spelled
  tail : List Piece
  isGap : ∀ following, GapBefore following lead
  headJoins : Piece.Joins head
  partsJoin : ∀ s ∈ parts, Piece.Joins s.pieces
  tailFits : Piece.Fits tail
  tailOpens : Piece.Opens tail

namespace Cut

def before (c : Cut) : String := String.ofList (c.lead ++ Piece.allChars c.head)

def after (c : Cut) : String := String.ofList (Piece.allChars c.tail)

def text (c : Cut) : String := c.before ++ String.join (c.parts.map Spelled.part) ++ c.after

def reorder (c : Cut) (parts : List Spelled) (perm : parts.Perm c.parts) : Cut where
  lead := c.lead
  head := c.head
  parts := parts
  tail := c.tail
  isGap := c.isGap
  headJoins := c.headJoins
  partsJoin s mem := c.partsJoin s (perm.mem_iff.mp mem)
  tailFits := c.tailFits
  tailOpens := c.tailOpens

theorem text_eq (c : Cut) : c.text = String.ofList (c.lead ++
    Piece.allChars (c.head ++ (c.parts.flatMap (·.pieces) ++ c.tail))) := by
  rw [← String.toList_inj]
  simp [text, before, after, Spelled.part, Piece.allChars, String.toList_join, List.flatMap_map,
    List.flatMap_assoc]

theorem words_text (c : Cut) : textWords c.text = c.head.map (·.word) ++
    ((c.parts.map (·.declaration)).flatMap declarationWords ++ c.tail.map (·.word)) := by
  have fits := c.headJoins.append (Spelled.fits_parts c.partsJoin c.tailFits c.tailOpens)
    (Spelled.opens_parts c.parts c.tailOpens)
  rw [text_eq, textWords_allChars (c.isGap _) fits]
  simp [List.flatMap_map, List.map_flatMap, Spelled.words]

theorem words_before (c : Cut) : textWords c.before = c.head.map (·.word) :=
  textWords_allChars (c.isGap _) c.headJoins.alone

theorem words_after (c : Cut) : textWords c.after = c.tail.map (·.word) :=
  textWords_pieces c.tailFits

theorem words_parts (c : Cut) : (c.parts.map Spelled.part).map textWords =
    (c.parts.map (·.declaration)).map declarationWords := by
  rw [List.map_map, List.map_map]
  exact List.map_congr_left fun s mem => s.words_part (c.partsJoin s mem)

end Cut

/-- The text of a program can be cut behind each of its declarations. -/
theorem exists_cut {text : String}
    (words : textWords text = programWords p.name declarations p.body) :
    ∃ c : Cut, c.text = text ∧
      c.head.map (·.word) = [Keyword.program.text, p.name, Keyword.is.text] ∧
      c.parts.map (·.declaration) = declarations ∧
      c.tail.map (·.word) = [Keyword.begin.text] ++ p.body.words ++ [Keyword.end.text, p.name] := by
  obtain ⟨⟨lead, pieces⟩, whole, isGap, fits⟩ := Division.exists_divides text.toList
  dsimp only at whole isGap fits
  have spelled : pieces.map (·.word) = [Keyword.program.text, p.name, Keyword.is.text] ++
      (declarations.flatMap declarationWords ++
        ([Keyword.begin.text] ++ p.body.words ++ [Keyword.end.text, p.name])) := by
    rw [← textWords_allChars isGap fits, ← whole, String.ofList_toList, words]
    simp [programWords, headWords]
  obtain ⟨head, pieces, rfl, inHead, spelled⟩ := List.map_eq_append_iff.mp spelled
  obtain ⟨declared, tail, rfl, inDeclarations, inTail⟩ := List.map_eq_append_iff.mp spelled
  obtain ⟨parts, rfl, rfl⟩ := Spelled.exists_parts inDeclarations
  have tailOpens : Piece.Opens tail := by
    obtain ⟨next, rest, rfl, isBegin, -⟩ := List.map_eq_cons_iff.mp inTail
    exact ⟨next, rest, rfl, isBegin ▸ inWordChars_keyword _⟩
  have anywhere : ∀ following, GapBefore following lead := by
    obtain ⟨first, rest, rfl, -⟩ := List.map_eq_cons_iff.mp inHead
    obtain ⟨c, starts, sameLine⟩ := Piece.Fits.head fits
    exact isGap.anywhere starts sameLine
  let c : Cut :=
    { lead, head, parts, tail, tailOpens
      isGap := anywhere
      headJoins := fits.joins (Spelled.opens_parts parts tailOpens)
      partsJoin := Spelled.joins_parts fits.behind tailOpens
      tailFits := fits.behind.behind }
  refine ⟨c, ?_, inHead, rfl, inTail⟩
  rw [c.text_eq, ← whole, String.ofList_toList]

/-! ## The order of bytes -/

namespace Text

theorem ofNat_lt_ofNat {m n : Nat} (hm : m < 256) (hn : n < 256) :
    UInt8.ofNat m < UInt8.ofNat n ↔ m < n := by
  rw [UInt8.lt_iff_toNat_lt, UInt8.toNat_ofNat_of_lt' hm, UInt8.toNat_ofNat_of_lt' hn]

theorem ofNat_eq_ofNat {m n : Nat} (hm : m < 256) (hn : n < 256) :
    UInt8.ofNat m = UInt8.ofNat n ↔ m = n := by
  rw [← UInt8.toNat_inj, UInt8.toNat_ofNat_of_lt' hm, UInt8.toNat_ofNat_of_lt' hn]

theorem utf8EncodeChar_lt {c d : Char} (before : c < d) (xs ys : List UInt8) :
    String.utf8EncodeChar c ++ xs < String.utf8EncodeChar d ++ ys := by
  have before : c.val.toNat < d.val.toNat := before
  have bound : d.val.toNat < 0x110000 := by
    rcases d.valid with low | ⟨-, high⟩
    · exact Nat.lt_trans low (by decide)
    · exact high
  have digits (n : Nat) : n / 4096 = n / 64 / 64 ∧ n / 262144 = n / 64 / 64 / 64 := by omega
  simp only [String.utf8EncodeChar, digits]
  generalize c.val.toNat = m at *
  generalize d.val.toNat = n at *
  -- Longer characters have greater first bytes, and those of one length differ in a first digit.
  repeat' split
  all_goals
    simp (disch := omega) only [List.cons_append, List.nil_append, List.cons_lt_cons_iff,
      ofNat_lt_ofNat, ofNat_eq_ofNat]
    omega

theorem encode_lt {s t : String} (before : s < t) : encode s < encode t := by
  rw [encode_eq, encode_eq]
  rw [String.lt_iff] at before
  generalize s.toList = cs at *
  generalize t.toList = ds at *
  induction cs generalizing ds with
  | nil =>
    cases ds with
    | nil => cases before
    | cons d ds =>
      obtain ⟨b, bytes, first⟩ := List.exists_cons_of_ne_nil (String.utf8EncodeChar_ne_nil (c := d))
      simp [first]
  | cons c cs ih =>
    cases ds with
    | nil => cases before
    | cons d ds =>
      rw [List.flatMap_cons, List.flatMap_cons]
      rcases List.cons_lt_cons_iff.mp before with first | ⟨rfl, behind⟩
      · exact utf8EncodeChar_lt first _ _
      · exact List.append_left_lt (ih ds behind)

end Text

/-! ## Listings -/

namespace Program

/-- Texts and JSON of the program list its instructions in the order of the bytes of their names, each
with its body. -/
structure Listed (p : Program) : Prop where
  bytes : (p.context.entries.map fun d => Text.encode d.1).Pairwise (· < ·)
  text : textWords p.text = programWords p.name p.context.entries p.body
  json : p.toJson = .object [("name", .string p.name),
    ("context", .object (p.context.entries.map fun d => (d.1, d.2.toJson))),
    ("body", p.body.toJson)]
  sorted : p.toJson.sorted = .object [("body", p.body.toJson.sorted),
    ("context", .object (p.context.entries.map fun d => (d.1, d.2.toJson.sorted))),
    ("name", .string p.name)]

theorem WellFormed.listed (formed : p.WellFormed) : p.Listed where
  bytes := by
    rw [List.pairwise_map]
    exact p.context.ascending.imp Text.encode_lt
  text := by
    have written := formed.written
    have texts := texts_program written.named written.fit written.body
    rw [texts_tokenize] at texts
    exact List.append_cancel_right texts
  json := rfl
  sorted := by rw [sorted_toJson, Context.sorted_toJson]

end Program

/-! ## Main statement -/

theorem Embedding.Service.answer_congr {text other : String}
    (same : Program.parse other = Program.parse text) (arrange : Json → Json)
    (service : Embedding.Service) : service.answer arrange other = service.answer arrange text := by
  cases service <;> simp only [answer, checkReport, same]

/-- Programs are accepted with their declarations in any order, and stay the same. -/
theorem declaration_order_irrelevant :
    (∀ (q : TokenQueue) (p : Program), (program (some nestingLimit) q).result = .ok p →
      ∃ declarations, WrittenWith (some nestingLimit) p declarations ∧
        q.texts = programWords p.name declarations p.body ++
          (program (some nestingLimit) q).rest.texts ∧
        (∀ others, WrittenWith (some nestingLimit) p others →
          q.texts = programWords p.name others p.body ++
            (program (some nestingLimit) q).rest.texts → others = declarations) ∧
        ∀ (permuted : List (String × Statement)) (r : TokenQueue), permuted.Perm declarations →
          r.texts = programWords p.name permuted p.body ++
            (program (some nestingLimit) q).rest.texts →
          (program (some nestingLimit) r).result = .ok p) ∧
    (∀ text p, Program.parse text = .ok p → ∃ before parts after declarations,
      WrittenWith (some nestingLimit) p declarations ∧
      text = before ++ String.join parts ++ after ∧
      textWords before = [Keyword.program.text, p.name, Keyword.is.text] ∧
      parts.map textWords = declarations.map declarationWords ∧
      textWords after = [Keyword.begin.text] ++ p.body.words ++ [Keyword.end.text, p.name] ∧
      ∀ other : String,
        (∃ permuted : List String, permuted.Perm parts ∧
          other = before ++ String.join permuted ++ after) ∨
        (∃ permuted : List (String × Statement), permuted.Perm declarations ∧
          textWords other = programWords p.name permuted p.body) →
        Program.parse other = .ok p ∧ ∀ arrange (service : Embedding.Service),
          service.answer arrange other = service.answer arrange text) ∧
    ∀ p : Program, (∃ text, Program.parse text = .ok p) ∨
      (∃ w : Workbench, w.Reachable ∧ ∃ name, p = w.program name) → p.Listed := by
  refine ⟨fun q p accepted => ?_, fun text p parsed => ?_, fun p built => ?_⟩
  · obtain ⟨declarations, ts, written, split, words, ended⟩ := words_of_program accepted
    have texts : q.texts = programWords p.name declarations p.body ++
        (program (some nestingLimit) q).rest.texts := by
      rw [TokenQueue.texts, split, List.map_append, words]
      rfl
    refine ⟨declarations, written, texts, fun others other same => ?_, fun permuted r perm same => ?_⟩
    · exact written.unique other (List.append_cancel_right (same.symm.trans texts))
    · obtain ⟨rest, run⟩ := program_of_texts (written.perm perm) ended same
      rw [run]
  · obtain ⟨declarations, written, words⟩ := Program.parse_ok_iff.mp parsed
    obtain ⟨c, rfl, inHead, rfl, inTail⟩ := exists_cut words
    refine ⟨c.before, c.parts.map Spelled.part, c.after, _, written, rfl,
      c.words_before.trans inHead, c.words_parts, c.words_after.trans inTail, fun other h => ?_⟩
    have reordered : ∃ permuted : List (String × Statement),
        permuted.Perm (c.parts.map (·.declaration)) ∧
          textWords other = programWords p.name permuted p.body := by
      rcases h with ⟨strings, perm, rfl⟩ | reordered
      · obtain ⟨parts, moved, rfl⟩ := Spelled.exists_perm perm
        refine ⟨parts.map (·.declaration), moved.map _, (c.reorder parts moved).words_text.trans ?_⟩
        simp [Cut.reorder, inHead, inTail, programWords, headWords]
      · exact reordered
    obtain ⟨permuted, perm, words⟩ := reordered
    have same := Program.parse_ok_iff.mpr ⟨permuted, written.perm perm, words⟩
    exact ⟨same, fun arrange service =>
      Embedding.Service.answer_congr (same.trans parsed.symm) arrange service⟩
  · rcases built with ⟨text, parsed⟩ | ⟨w, reached, name, rfl⟩
    · exact (wellFormed_of_program parsed).listed
    · exact (reached.sound.programs name).listed

/-- Two declarations, the first of them with a comment behind it, and the other one before it. -/
theorem declaration_order_irrelevant_two :
    let text := "PROGRAM p IS INSTRUCTION b IS END b #\nINSTRUCTION a IS move END a BEGIN END p"
    let p : Program := ⟨"p", .ofEntries [("a", .block [.call "move"]), ("b", .block [])], .block []⟩
    (∃ before parts after, text = before ++ String.join parts ++ after ∧
      Program.parse (before ++ String.join parts.reverse ++ after) = .ok p) ∧
      Program.parse "PROGRAM p IS INSTRUCTION a IS move END a INSTRUCTION b IS END b BEGIN END p" =
        .ok p ∧
      p.Listed := by
  intro text p
  have parsed : Program.parse text = .ok p := by decide +kernel
  obtain ⟨-, texts, listed⟩ := declaration_order_irrelevant
  obtain ⟨before, parts, after, declarations, written, cut, -, -, -, reordered⟩ := texts _ _ parsed
  have ascending : textWords
      "PROGRAM p IS INSTRUCTION a IS move END a INSTRUCTION b IS END b BEGIN END p" =
        programWords p.name p.context.entries p.body := by decide +kernel
  refine ⟨⟨before, parts, after, cut, ?_⟩, ?_, listed p (.inl ⟨text, parsed⟩)⟩
  · exact (reordered _ (.inl ⟨parts.reverse, parts.reverse_perm, rfl⟩)).1
  · exact (reordered _ (.inr ⟨p.context.entries, written.declares, ascending⟩)).1

end RobotLang
