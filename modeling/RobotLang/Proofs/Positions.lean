import RobotLang.Proofs.LexicalGrammar

/-!
Where the tokens of a text stand. A place that characters lead to can be counted from them: its line
from their newlines, and its column from those behind the last newline (`Span.countedIn_across`). The
tokens come in the order of their characters, and each one stands behind the characters of all before
it (`Piece.pairwise_tokens`), so their places ascend.

Main statement: `token_places_exact`.
-/

namespace RobotLang

namespace Span

/-- The place is the one of the character behind so many characters of a text: there are as many
newlines before it as lines above it, and the characters behind the last of these stand on its line. -/
structure CountedIn (s : Span) (text : List Char) : Prop where
  inside : s.offset ≤ text.length
  line : s.line = 1 + (text.take s.offset).count '\n'
  column : s.column = 1 + ((text.take s.offset).reverse.takeWhile (· ≠ '\n')).length

/-- Further up, or further left on the same line. -/
def Precedes (s next : Span) : Prop :=
  Prod.Lex (· < ·) (· < ·) (s.line, s.column) (next.line, next.column)

variable {s next : Span}

/-! ## Places that characters lead to -/

theorem column_across (rs : List Char) :
    (start.across rs.reverse).column = 1 + (rs.takeWhile (· ≠ '\n')).length := by
  -- On the reversed characters, whose head is the one read last.
  induction rs with
  | nil => rfl
  | cons c rs ih =>
    have last : start.across (c :: rs).reverse = (start.across rs.reverse).after c := by
      rw [List.reverse_cons, across_append]
      rfl
    rw [last, after]
    by_cases newline : c = '\n'
    · simp [newline]
    · have taken : (c :: rs).takeWhile (· ≠ '\n') = c :: rs.takeWhile (· ≠ '\n') :=
        List.takeWhile_cons_of_pos (by simpa using newline)
      rw [if_neg newline, taken, List.length_cons, ← Nat.add_assoc, ← ih]

theorem countedIn_across {before text : List Char} (begins : before <+: text) :
    (start.across before).CountedIn text := by
  obtain ⟨behind, rfl⟩ := begins
  have offset : (start.across before).offset = before.length := by
    rw [offset_across, start, Nat.zero_add]
  have taken : (before ++ behind).take (start.across before).offset = before := by
    rw [offset, List.take_left]
  constructor
  · simp [offset]
  · rw [taken, line_across]
    rfl
  · rw [taken, ← column_across, List.reverse_reverse]

theorem precedes_iff :
    s.Precedes next ↔ s.line < next.line ∨ s.line = next.line ∧ s.column < next.column :=
  Prod.lex_def

theorem precedes_after (s : Span) (c : Char) : s.Precedes (s.after c) := by
  rw [precedes_iff]
  unfold after
  split
  · exact .inl (Nat.lt_succ_self _)
  · exact .inr ⟨rfl, Nat.lt_succ_self _⟩

theorem Precedes.trans {last : Span} (h : s.Precedes next) (k : next.Precedes last) :
    s.Precedes last := by
  rw [precedes_iff] at *
  omega

theorem precedes_across (s : Span) {cs : List Char} (some : cs ≠ []) : s.Precedes (s.across cs) := by
  induction cs generalizing s with
  | nil => exact absurd rfl some
  | cons c cs ih =>
    have first := s.precedes_after c
    cases cs with
    | nil => exact first
    | cons d cs => exact first.trans (ih (s.after c) (by simp))

end Span

/-! ## Tokens in their order -/

/-- The second token stands behind the characters of the first one. -/
def Token.Before (t u : Token) : Prop :=
  ∃ s between, t.span = some s ∧ u.span = some (s.across (t.text.toList ++ between))

namespace Piece

variable {t : Token} {place : Span} {ps : List Piece}

theorem stands_of_mem_tokens (mem : t ∈ tokens place ps) :
    ∃ before behind, allChars ps = before ++ t.text.toList ++ behind ∧
      t.span = some (place.across before) := by
  induction ps generalizing place with
  | nil => cases mem
  | cons p ps ih =>
    rcases List.mem_cons.mp mem with rfl | mem
    · refine ⟨[], p.gap ++ allChars ps, ?_, rfl⟩
      simp [allChars, chars]
    · obtain ⟨before, behind, whole, stands⟩ := ih mem
      refine ⟨p.chars ++ before, behind, ?_, by rw [stands, Span.across_append]⟩
      rw [allChars, List.flatMap_cons, ← allChars, whole]
      simp

/-- The last token closes what the pieces are read to. -/
theorem pairwise_tokens (place : Span) (ps : List Piece) (last : String) :
    (tokens place ps ++ [(⟨last, some (place.across (allChars ps))⟩ : Token)]).Pairwise
      Token.Before := by
  induction ps generalizing place with
  | nil => simp [tokens]
  | cons p ps ih =>
    have behind (cs : List Char) : (place.across p.chars).across cs =
        place.across (p.word.toList ++ (p.gap ++ cs)) := by
      rw [← Span.across_append, chars, List.append_assoc]
    have closing : place.across (allChars (p :: ps)) = (place.across p.chars).across (allChars ps) :=
      Span.across_append ..
    rw [closing, tokens, List.cons_append, List.pairwise_cons]
    refine ⟨fun u mem => ?_, ih _⟩
    rcases List.mem_append.mp mem with mem | mem
    · obtain ⟨before, _, -, stands⟩ := stands_of_mem_tokens mem
      exact ⟨place, p.gap ++ before, rfl, by rw [stands, behind]⟩
    · obtain rfl := List.mem_singleton.mp mem
      exact ⟨place, p.gap ++ allChars ps, rfl, by rw [behind]⟩

theorem Fits.isWord (fits : Fits ps) : ∀ p ∈ ps, IsWord p.word := by
  induction fits with
  | nil => simp
  | cons isWord _ _ _ ih => exact List.forall_mem_cons.mpr ⟨isWord, ih⟩

end Piece

/-! ## Tokens of a text -/

section

variable {text : String} {t u : Token}

/-- The characters of a token stand in the text, and its place is where those before them lead. -/
theorem stands_of_mem_tokenize (mem : t ∈ (tokenize text).tokens) :
    ∃ before behind, text.toList = before ++ (t.text.toList ++ behind) ∧
      t.span = some (Span.start.across before) := by
  obtain ⟨d, divides⟩ := Division.exists_divides text.toList
  rw [divides.tokenize_eq] at mem
  obtain ⟨before, behind, whole, span⟩ := Piece.stands_of_mem_tokens mem
  refine ⟨d.lead ++ before, behind, ?_, by rw [span, Span.across_append]⟩
  rw [divides.whole, whole]
  simp

theorem isWord_of_mem_tokenize (mem : t ∈ (tokenize text).tokens) : IsWord t.text := by
  obtain ⟨d, divides⟩ := Division.exists_divides text.toList
  rw [divides.tokenize_eq] at mem
  have word := List.mem_map_of_mem (f := Token.text) mem
  rw [Piece.text_tokens] at word
  obtain ⟨p, inside, spelled⟩ := List.mem_map.mp word
  exact spelled ▸ divides.pieces.isWord p inside

theorem text_ne_nil_of_mem_tokenize (mem : t ∈ (tokenize text).toList) : t.text.toList ≠ [] := by
  rcases List.mem_append.mp mem with mem | mem
  · obtain ⟨c, more, spelled, -⟩ := (isWord_of_mem_tokenize mem).head
    rw [spelled]
    exact List.cons_ne_nil c more
  · obtain rfl := List.mem_singleton.mp mem
    have closing : endOfInput.toList ≠ [] := by decide
    exact closing

theorem pairwise_tokenize (text : String) : (tokenize text).toList.Pairwise Token.Before := by
  obtain ⟨d, divides⟩ := Division.exists_divides text.toList
  have ordered := Piece.pairwise_tokens (Span.start.across d.lead) d.pieces endOfInput
  rw [← Span.across_append, ← divides.whole] at ordered
  rw [divides.tokenize_eq]
  exact ordered

theorem Token.Before.ascends (before : t.Before u) (some : t.text.toList ≠ []) :
    ∃ s next, t.span = .some s ∧ u.span = .some next ∧
      s.offset < next.offset ∧ s.offset + t.text.length ≤ next.offset ∧ s.Precedes next := by
  obtain ⟨s, between, place, next⟩ := before
  have length := List.length_pos_iff.mpr some
  refine ⟨s, _, place, next, ?_, ?_, s.precedes_across (by simp [some])⟩
  · rw [Span.offset_across, List.length_append]
    omega
  · rw [Span.offset_across, List.length_append, String.length_toList]
    omega

theorem countedIn_of_mem_tokenize (mem : t ∈ (tokenize text).toList) :
    ∃ s, t.span = some s ∧ s.CountedIn text.toList := by
  rcases List.mem_append.mp mem with mem | mem
  · obtain ⟨before, behind, whole, span⟩ := stands_of_mem_tokenize mem
    exact ⟨_, span, Span.countedIn_across ⟨_, whole.symm⟩⟩
  · obtain ⟨d, divides⟩ := Division.exists_divides text.toList
    obtain rfl := List.mem_singleton.mp mem
    rw [divides.tokenize_eq]
    exact ⟨_, rfl, Span.countedIn_across List.prefix_rfl⟩

end

/-- Places of tokens are counted from the text, the characters of a token stand in the text at its
place, and along the queue places ascend: each token stands behind the characters of those before it,
so no two of them stand at one place. -/
theorem token_places_exact (text : String) :
    (∀ t ∈ (tokenize text).toList, ∃ s, t.span = some s ∧ s.CountedIn text.toList) ∧
    (∀ t ∈ (tokenize text).tokens, ∃ s, t.span = some s ∧
      t.text.toList <+: text.toList.drop s.offset) ∧
    (tokenize text).toList.Pairwise (fun t u => ∃ s next, t.span = some s ∧ u.span = some next ∧
      s.offset < next.offset ∧ s.offset + t.text.length ≤ next.offset ∧ s.Precedes next) ∧
    ((tokenize text).toList.map fun t => t.span.map fun s => (s.line, s.column)).Nodup := by
  have ascend := (pairwise_tokenize text).imp_of_mem fun mem _ before =>
    before.ascends (text_ne_nil_of_mem_tokenize mem)
  refine ⟨fun t => countedIn_of_mem_tokenize, fun t mem => ?_, ascend, ?_⟩
  · obtain ⟨before, behind, whole, span⟩ := stands_of_mem_tokenize mem
    refine ⟨_, span, ?_⟩
    have offset : (Span.start.across before).offset = before.length := by
      rw [Span.offset_across, Span.start, Nat.zero_add]
    rw [offset, whole, List.drop_left]
    exact List.prefix_append ..
  · -- Tokens at one place would not ascend.
    refine List.pairwise_map.mpr (ascend.imp fun {t u} before same => ?_)
    obtain ⟨s, next, place, next', -, -, precedes⟩ := before
    simp only [place, next', Option.map_some, Option.some.injEq, Prod.mk.injEq] at same
    rw [Span.precedes_iff] at precedes
    omega

/-- A word, and on the next line a symbol beyond ASCII and a word that follows it without a gap. -/
theorem token_places_exact_two_lines :
    (tokenize "go # é\n\tÄb").toList = [⟨"go", some ⟨1, 1, 0⟩⟩, ⟨"Ä", some ⟨2, 2, 8⟩⟩,
        ⟨"b", some ⟨2, 3, 9⟩⟩, ⟨endOfInput, some ⟨2, 4, 10⟩⟩] ∧
      (⟨2, 4, 10⟩ : Span).CountedIn "go # é\n\tÄb".toList ∧
      "b".toList <+: "go # é\n\tÄb".toList.drop 9 ∧
      (⟨1, 1, 0⟩ : Span).Precedes ⟨2, 2, 8⟩ := by
  obtain ⟨counted, spelled, ascend, -⟩ := token_places_exact "go # é\n\tÄb"
  have tokens : (tokenize "go # é\n\tÄb").toList = [⟨"go", some ⟨1, 1, 0⟩⟩, ⟨"Ä", some ⟨2, 2, 8⟩⟩,
      ⟨"b", some ⟨2, 3, 9⟩⟩, ⟨endOfInput, some ⟨2, 4, 10⟩⟩] := by rfl
  rw [tokens] at counted ascend
  obtain ⟨s, ⟨⟩, closing⟩ := counted ⟨endOfInput, some ⟨2, 4, 10⟩⟩ (by simp)
  obtain ⟨s, ⟨⟩, word⟩ := spelled ⟨"b", some ⟨2, 3, 9⟩⟩ (by decide +kernel)
  obtain ⟨first, -⟩ := List.pairwise_cons.mp ascend
  obtain ⟨s, next, ⟨⟩, ⟨⟩, -, -, precedes⟩ := first ⟨"Ä", some ⟨2, 2, 8⟩⟩ (by simp)
  exact ⟨tokens, closing, word, precedes⟩

end RobotLang
