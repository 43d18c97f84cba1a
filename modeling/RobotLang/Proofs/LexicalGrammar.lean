import RobotLang.Proofs.TextWords

/-!
The lexical grammar. A text is a gap, and then words with a gap behind each of them. A gap holds white
space and comments, and a word is either written in word characters alone or a single character that
may stand neither in such a word nor in a gap. Two words in word characters are kept apart by the gap
between them, and a comment goes on to the end of its line.

Main statement: every text is divided in this way, in one way only, and scanning comes to the words of
this division, each at the place up to which the text before it goes (`tokenize_divides`).
-/

namespace RobotLang

/-! ## Places -/

/-- The place behind the characters, for the place before them. -/
def Span.across (s : Span) (cs : List Char) : Span := cs.foldl Span.after s

theorem Span.across_append (s : Span) (cs ds : List Char) :
    s.across (cs ++ ds) = (s.across cs).across ds := List.foldl_append

theorem Span.offset_after (s : Span) (c : Char) : (s.after c).offset = s.offset + 1 := by
  unfold after
  split <;> rfl

theorem Span.offset_across (s : Span) (cs : List Char) :
    (s.across cs).offset = s.offset + cs.length := by
  induction cs generalizing s with
  | nil => rfl
  | cons c cs ih =>
    rw [across, List.foldl_cons, ← across, ih, offset_after, List.length_cons]
    omega

theorem Span.line_across (s : Span) (cs : List Char) :
    (s.across cs).line = s.line + cs.count '\n' := by
  induction cs generalizing s with
  | nil => rfl
  | cons c cs ih =>
    rw [across, List.foldl_cons, ← across, ih]
    unfold after
    split
    · rename_i newline
      subst newline
      simp only [List.count_cons_self]
      omega
    · rename_i other
      simp only [List.count_cons_of_ne other]

/-! ## The grammar -/

/-- A character that is a word of its own. -/
def IsSymbol (c : Char) : Prop := isWordChar c = false ∧ Text.isBlank c = false ∧ c ≠ '#'

/-- A run of word characters, or a symbol. -/
def IsWord (word : String) : Prop := InWordChars word ∨ ∃ c, word.toList = [c] ∧ IsSymbol c

/-- White space and comments, before the characters that follow in the text. A comment is `#` and all
characters up to the next newline, or up to the end of the text. -/
inductive GapBefore (following : List Char) : List Char → Prop
  | nil : GapBefore following []
  | blank {c : Char} {g : List Char} (isBlank : Text.isBlank c = true)
      (rest : GapBefore following g) : GapBefore following (c :: g)
  | comment {line g : List Char} (oneLine : '\n' ∉ line)
      (toLineEnd : ∀ c ∈ (g ++ following).head?, c = '\n') (rest : GapBefore following g) :
      GapBefore following ('#' :: line ++ g)

/-- A word and the gap behind it. -/
structure Piece where
  word : String
  gap : List Char
deriving DecidableEq

namespace Piece

def chars (p : Piece) : List Char := p.word.toList ++ p.gap

/-- The characters of pieces, one piece behind the other. -/
def allChars (ps : List Piece) : List Char := ps.flatMap chars

/-- Words and gaps are what they have to be, and runs of word characters stand apart. -/
inductive Fits : List Piece → Prop
  | nil : Fits []
  | cons {p : Piece} {ps : List Piece} (isWord : IsWord p.word) (isGap : GapBefore (allChars ps) p.gap)
      (apart : InWordChars p.word → ∀ next ∈ ps.head?, InWordChars next.word → p.gap ≠ [])
      (rest : Fits ps) : Fits (p :: ps)

/-- The words as tokens, the first of them at the place. -/
def tokens : Span → List Piece → List Token
  | _, [] => []
  | place, p :: ps => ⟨p.word, some place⟩ :: tokens (place.across p.chars) ps

end Piece

/-- A text in parts: the gap that it begins with, and words with the gaps behind them. -/
structure Division where
  lead : List Char
  pieces : List Piece
deriving DecidableEq

namespace Division

def words (d : Division) : List String := d.pieces.map (·.word)

/-- The characters before the word of this number, counted from zero. -/
def before (d : Division) (i : Nat) : List Char := d.lead ++ Piece.allChars (d.pieces.take i)

/-- The parts are those of the text, and what the grammar says they are. -/
structure Divides (d : Division) (text : List Char) : Prop where
  whole : text = d.lead ++ Piece.allChars d.pieces
  lead : GapBefore (Piece.allChars d.pieces) d.lead
  pieces : Piece.Fits d.pieces

end Division

theorem IsSymbol.isWord {c : Char} (symbol : IsSymbol c) : IsWord (String.ofList [c]) :=
  .inr ⟨c, String.toList_ofList, symbol⟩

theorem inWordChars_cons {c : Char} {word : String} (first : isWordChar c = true)
    (inside : word.toList.all isWordChar = true) :
    InWordChars (String.ofList (c :: word.toList)) := by
  simp only [InWordChars, String.toList_ofList]
  exact ⟨by simp, by simp [first, inside]⟩

/-- The first character of a word is in no gap. -/
theorem IsWord.head {word : String} (isWord : IsWord word) :
    ∃ c more, word.toList = c :: more ∧ Text.isBlank c = false ∧ c ≠ '#' ∧
      (isWordChar c = true → InWordChars word) := by
  rcases isWord with inside | ⟨c, spelled, notWord, notBlank, notHash⟩
  · obtain ⟨nonempty, chars⟩ := id inside
    obtain ⟨c, more, spelled⟩ := List.exists_cons_of_ne_nil nonempty
    have first : isWordChar c = true := by
      rw [spelled, List.all_cons, Bool.and_eq_true] at chars
      exact chars.1
    refine ⟨c, more, spelled, ?_, ?_, fun _ => inside⟩
    · rw [← Bool.not_eq_true]
      intro blank
      rw [(Text.not_isWordChar_of_isBlank blank).1] at first
      cases first
    · rintro rfl
      exact absurd first (by decide)
  · exact ⟨c, [], spelled, notBlank, notHash, fun isWordChar => by simp [notWord] at isWordChar⟩

theorem GapBefore.head {following g : List Char} {c : Char} (gap : GapBefore following g)
    (first : g.head? = some c) : isWordChar c = false := by
  cases gap with
  | nil => cases first
  | blank isBlank =>
    cases first
    exact (Text.not_isWordChar_of_isBlank isBlank).1
  | comment =>
    cases first
    decide

/-! ## Dividing a text -/

namespace Division

variable {d : Division} {text : List Char} {c : Char}

theorem Divides.nil : (⟨[], []⟩ : Division).Divides [] := ⟨rfl, .nil, .nil⟩

theorem Divides.blank (h : d.Divides text) (isBlank : Text.isBlank c = true) :
    (⟨c :: d.lead, d.pieces⟩ : Division).Divides (c :: text) :=
  ⟨by rw [h.whole]; rfl, .blank isBlank h.lead, h.pieces⟩

theorem Divides.comment {line : List Char} (h : d.Divides text) (oneLine : '\n' ∉ line)
    (toLineEnd : ∀ c ∈ text.head?, c = '\n') :
    (⟨'#' :: line ++ d.lead, d.pieces⟩ : Division).Divides ('#' :: line ++ text) := by
  refine ⟨by simp [h.whole], .comment oneLine ?_ h.lead, h.pieces⟩
  rwa [← h.whole]

theorem Divides.symbol (h : d.Divides text) (symbol : IsSymbol c) :
    (⟨[], ⟨String.ofList [c], d.lead⟩ :: d.pieces⟩ : Division).Divides (c :: text) := by
  refine ⟨by simp [h.whole, Piece.allChars, Piece.chars], .nil, .cons symbol.isWord h.lead ?_ h.pieces⟩
  rintro ⟨-, chars⟩
  simp [symbol.1] at chars

/-- A word character begins a word, or goes before the word that the text begins with. -/
theorem Divides.wordChar (h : d.Divides text) (first : isWordChar c = true) :
    ∃ e : Division, e.Divides (c :: text) := by
  have single : InWordChars (String.ofList [c]) := by simp [InWordChars, first]
  obtain ⟨whole, lead, pieces⟩ := h
  obtain ⟨gap, ps⟩ := d
  by_cases joins : gap = [] ∧ ∃ next ∈ ps.head?, InWordChars next.word
  · obtain ⟨rfl, next, isHead, inside⟩ := joins
    obtain _ | ⟨p, ps⟩ := ps
    · cases isHead
    cases isHead
    obtain _ | ⟨-, isGap, apart, rest⟩ := pieces
    have longer := inWordChars_cons first inside.2
    refine ⟨⟨[], ⟨String.ofList (c :: next.word.toList), next.gap⟩ :: ps⟩, ?_, .nil, ?_⟩
    · simp [whole, Piece.allChars, Piece.chars]
    · exact .cons (.inl longer) isGap (fun _ => apart inside) rest
  · refine ⟨⟨[], ⟨String.ofList [c], gap⟩ :: ps⟩, ?_, .nil, .cons (.inl single) lead ?_ pieces⟩
    · simp [whole, Piece.allChars, Piece.chars]
    · rintro - next isHead inside rfl
      exact joins ⟨rfl, next, isHead, inside⟩

theorem exists_divides : ∀ text : List Char, ∃ d : Division, d.Divides text
  | [] => ⟨_, .nil⟩
  | c :: text => by
    by_cases hash : c = '#'
    · -- The text behind the comment is divided, and the comment goes into its first gap.
      subst hash
      have shorter := (List.dropWhile_sublist (l := text) (· ≠ '\n')).length_le
      obtain ⟨d, divides⟩ := exists_divides (text.dropWhile (· ≠ '\n'))
      have oneLine : '\n' ∉ text.takeWhile (· ≠ '\n') := by
        intro newline
        simpa using List.all_eq_true.mp List.all_takeWhile _ newline
      have toLineEnd : ∀ c ∈ (text.dropWhile (· ≠ '\n')).head?, c = '\n' := by
        intro c first
        have stops := List.head?_dropWhile_not (· ≠ '\n') text
        rw [first] at stops
        simpa using stops
      have parts : '#' :: text =
          '#' :: text.takeWhile (· ≠ '\n') ++ text.dropWhile (· ≠ '\n') := by simp
      rw [parts]
      exact ⟨_, divides.comment oneLine toLineEnd⟩
    · obtain ⟨d, divides⟩ := exists_divides text
      cases word : isWordChar c with
      | true => exact divides.wordChar word
      | false =>
        cases blank : Text.isBlank c with
        | true => exact ⟨_, divides.blank blank⟩
        | false => exact ⟨_, divides.symbol ⟨word, blank, hash⟩⟩
  termination_by text => text.length
  decreasing_by all_goals
    simp only [List.length_cons]
    omega

end Division

/-! ## Scanning a division -/

namespace Scanner

variable (found : List Token) (place : Span)

theorem scan_gapBefore {following g : List Char} (gap : GapBefore following g) :
    ((⟨found, place, .gap⟩ : Scanner).scan (g ++ following)).finish =
      ((⟨found, place.across g, .gap⟩ : Scanner).scan following).finish := by
  induction gap generalizing place with
  | nil => rfl
  | @blank c g isBlank _ ih =>
    have stepped : (⟨found, place, .gap⟩ : Scanner).step c = ⟨found, place.after c, .gap⟩ :=
      fresh_of_isBlank isBlank found place
    rw [List.cons_append, scan_cons, stepped, ih]
    rfl
  | @comment line g oneLine toLineEnd _ ih =>
    have inLine : ∀ c ∈ line, decide (c ≠ '\n') = true := by
      intro c mem
      simpa using fun newline : c = '\n' => oneLine (newline ▸ mem)
    have taken : (line ++ (g ++ following)).takeWhile (· ≠ '\n') = line := by
      rw [List.takeWhile_append_of_pos inLine]
      cases behind : g ++ following with
      | nil => simp
      | cons c cs => simp [toLineEnd c (by simp [behind])]
    have left : (line ++ (g ++ following)).dropWhile (· ≠ '\n') = g ++ following := by
      rw [List.dropWhile_append_of_pos inLine]
      cases behind : g ++ following with
      | nil => simp
      | cons c cs => simp [toLineEnd c (by simp [behind])]
    have opened : (⟨found, place, .gap⟩ : Scanner).step '#' = ⟨found, place.after '#', .comment⟩ :=
      rfl
    have closed := Cursor.scan_comment found (place.after '#') (line ++ (g ++ following))
    simp only [Cursor.past, taken, left] at closed
    rw [List.append_assoc, List.cons_append, scan_cons, opened, closed, ih, Span.across_append]
    rfl

theorem scan_isWord {word : String} {following : List Char} (isWord : IsWord word)
    (ends : InWordChars word → ∀ c ∈ following.head?, isWordChar c = false) :
    ((⟨found, place, .gap⟩ : Scanner).scan (word.toList ++ following)).finish =
      ((⟨⟨word, some place⟩ :: found, place.across word.toList, .gap⟩ : Scanner).scan
        following).finish := by
  obtain ⟨first, more, spelled, notBlank, notHash, run⟩ := isWord.head
  have token : Cursor.token place first (more ++ following) =
      (⟨word, some place⟩, ⟨place.across word.toList, following⟩) := by
    unfold Cursor.token
    split
    · rename_i isWordChar
      obtain ⟨-, inside⟩ := run isWordChar
      have behind := ends (run isWordChar)
      rw [spelled, List.all_cons, Bool.and_eq_true, List.all_eq_true] at inside
      have stops : following.takeWhile RobotLang.isWordChar = [] ∧
          following.dropWhile RobotLang.isWordChar = following := by
        cases following with
        | nil => simp
        | cons c cs => simp [behind c rfl]
      simp only [Cursor.past, List.takeWhile_append_of_pos inside.2,
        List.dropWhile_append_of_pos inside.2, stops, List.append_nil, ← spelled,
        String.ofList_toList]
      rw [spelled]
      rfl
    · rename_i notWord
      rcases isWord with ⟨-, inside⟩ | ⟨c, single, -⟩
      · rw [spelled, List.all_cons, Bool.and_eq_true] at inside
        exact absurd inside.1 notWord
      · rw [single] at spelled
        cases spelled
        rw [← single, String.ofList_toList, single]
        rfl
  rw [spelled, List.cons_append,
    Cursor.scan_token found place first (more ++ following) notBlank notHash, token, ← spelled]

theorem scan_pieces {ps : List Piece} (fits : Piece.Fits ps) :
    ((⟨found, place, .gap⟩ : Scanner).scan (Piece.allChars ps)).finish =
      ⟨found.reverse ++ Piece.tokens place ps, some (place.across (Piece.allChars ps))⟩ := by
  induction fits generalizing found place with
  | nil => simp [Piece.allChars, scan, finish, completed, Piece.tokens, Span.across]
  | @cons p ps isWord isGap apart rest ih =>
    have ends : InWordChars p.word → ∀ c ∈ (p.gap ++ Piece.allChars ps).head?,
        isWordChar c = false := by
      intro inside c first
      cases gap : p.gap with
      | cons b g => exact isGap.head (by simpa [gap] using first)
      | nil =>
        -- Behind a run of word characters and no gap there is a symbol.
        cases rest with
        | nil => simp [gap, Piece.allChars] at first
        | @cons next ps isWordNext =>
          obtain ⟨d, more, spelled, -, -, run⟩ := isWordNext.head
          have same : d = c := by simpa [gap, Piece.allChars, Piece.chars, spelled] using first
          rw [← same, ← Bool.not_eq_true]
          exact fun isWordChar => apart inside next rfl (run isWordChar) gap
    have split : Piece.allChars (p :: ps) = p.word.toList ++ (p.gap ++ Piece.allChars ps) := by
      simp [Piece.allChars, Piece.chars]
    rw [split, scan_isWord found place isWord ends, scan_gapBefore _ _ isGap, ih, Piece.tokens,
      Piece.chars, Span.across_append, Span.across_append, Span.across_append]
    simp

end Scanner

namespace Division

variable {d : Division}

theorem Divides.tokenize_eq {text : String} (divides : d.Divides text.toList) :
    tokenize text = ⟨Piece.tokens (Span.start.across d.lead) d.pieces,
      some (Span.start.across text.toList)⟩ := by
  rw [tokenize, divides.whole, Scanner.start, Scanner.scan_gapBefore [] .start divides.lead,
    Scanner.scan_pieces [] _ divides.pieces, Span.across_append]
  simp

end Division

namespace Piece

theorem text_tokens (place : Span) (ps : List Piece) :
    (tokens place ps).map (·.text) = ps.map (·.word) := by
  induction ps generalizing place with
  | nil => rfl
  | cons p ps ih => simp [tokens, ih]

theorem span_tokens (place : Span) (ps : List Piece) :
    (tokens place ps).map (·.span) =
      (List.range ps.length).map fun i => some (place.across (allChars (ps.take i))) := by
  induction ps generalizing place with
  | nil => rfl
  | cons p ps ih =>
    rw [tokens, List.map_cons, ih, List.length_cons, List.range_succ_eq_map, List.map_cons,
      List.map_map]
    simp [allChars, Span.across, Function.comp_def]

/-- Pieces of the same characters with the same tokens are the same. -/
theorem eq_of_tokens {lead lead' : List Char} {ps ps' : List Piece} {place : Span}
    (whole : lead ++ allChars ps = lead' ++ allChars ps')
    (same : tokens (place.across lead) ps = tokens (place.across lead') ps') :
    lead = lead' ∧ ps = ps' := by
  induction ps generalizing lead lead' ps' place with
  | nil =>
    cases ps' with
    | nil => exact ⟨by simpa [allChars] using whole, rfl⟩
    | cons => cases same
  | cons p ps ih =>
    obtain _ | ⟨⟨word, gap⟩, ps'⟩ := ps'
    · cases same
    simp only [tokens, List.cons.injEq, Token.mk.injEq, Option.some.injEq] at same
    obtain ⟨⟨rfl, places⟩, same⟩ := same
    have length : lead.length = lead'.length := by
      simpa [Span.offset_across] using congrArg Span.offset places
    obtain ⟨rfl, whole⟩ := List.append_inj whole length
    simp only [allChars, List.flatMap_cons, chars, List.append_assoc,
      List.append_cancel_left_eq] at whole
    simp only [chars, Span.across_append] at same
    obtain ⟨rfl, rfl⟩ := ih whole same
    exact ⟨rfl, rfl⟩

end Piece

/-- Tokens of texts, the end of the input among them, have places. -/
theorem span_of_mem_tokenize {text : String} {t : Token} (mem : t ∈ (tokenize text).toList) :
    ∃ place, t.span = some place := by
  obtain ⟨d, divides⟩ := Division.exists_divides text.toList
  rw [divides.tokenize_eq, TokenQueue.toList, List.mem_append, List.mem_singleton] at mem
  rcases mem with mem | rfl
  · have spans := List.mem_map_of_mem (f := Token.span) mem
    rw [Piece.span_tokens] at spans
    obtain ⟨i, -, place⟩ := List.mem_map.mp spans
    exact ⟨_, place.symm⟩
  · exact ⟨_, rfl⟩

theorem Division.Divides.unique {d e : Division} {text : String} (h : d.Divides text.toList)
    (k : e.Divides text.toList) : e = d := by
  have same := k.tokenize_eq.symm.trans h.tokenize_eq
  simp only [TokenQueue.mk.injEq, and_true] at same
  obtain ⟨leads, pieces⟩ := Piece.eq_of_tokens (k.whole.symm.trans h.whole) same
  obtain ⟨lead, ps⟩ := e
  rw [Division.mk.injEq]
  exact ⟨leads, pieces⟩

/-! ## Words with a space between any two -/

namespace Piece

/-- The words with a space behind each but the last. -/
def spaced : List String → List Piece
  | [] => []
  | [word] => [⟨word, []⟩]
  | word :: words => ⟨word, [' ']⟩ :: spaced words

theorem word_spaced (words : List String) : (spaced words).map (·.word) = words := by
  induction words with
  | nil => rfl
  | cons word words ih =>
    cases words with
    | nil => rfl
    | cons next words => simpa [spaced] using ih

theorem allChars_spaced (words : List String) :
    allChars (spaced words) = (" ".intercalate words).toList := by
  rw [String.toList_intercalate]
  induction words with
  | nil => rfl
  | cons word words ih =>
    cases words with
    | nil => simp [spaced, allChars, chars]
    | cons next words =>
      simp only [List.map_cons, List.intercalate_cons_cons] at ih ⊢
      simp only [spaced, allChars, List.flatMap_cons, chars] at ih ⊢
      rw [ih]
      rfl

theorem fits_spaced {words : List String} (isWords : ∀ word ∈ words, IsWord word) :
    Fits (spaced words) := by
  induction words with
  | nil => exact .nil
  | cons word words ih =>
    obtain ⟨isWord, after⟩ := List.forall_mem_cons.mp isWords
    cases words with
    | nil => exact .cons isWord .nil (by simp) .nil
    | cons next words => exact .cons isWord (.blank (by decide) .nil) (by simp) (ih after)

end Piece

/-! ## Main statement -/

/-- Every text has exactly one division, and the tokens of the text are the words of it, each at the
number of the characters before it. Words with a space between any two are told apart again. -/
theorem tokenize_divides :
    (∀ text : String, ∃ d : Division, d.Divides text.toList ∧
      (∀ e : Division, e.Divides text.toList → e = d) ∧
      (tokenize text).texts = d.words ++ [endOfInput] ∧ endOfInput ∉ d.words ∧
      (tokenize text).toList.map (fun t => t.span.map (·.offset)) =
        (List.range d.pieces.length).map (fun i => some (d.before i).length) ++
          [some text.length]) ∧
    ∀ words : List String, (∀ word ∈ words, IsWord word) →
      (tokenize (" ".intercalate words)).texts = words ++ [endOfInput] := by
  constructor
  · intro text
    obtain ⟨d, divides⟩ := Division.exists_divides text.toList
    have tokens := divides.tokenize_eq
    have texts : (tokenize text).tokens.map (·.text) = d.words := by
      rw [tokens, Piece.text_tokens]
      rfl
    refine ⟨d, divides, fun e => divides.unique, ?_, ?_, ?_⟩
    · rw [texts_tokenize, textWords, texts]
    · rw [← texts]
      intro mem
      obtain ⟨t, mem, isEnd⟩ := List.mem_map.mp mem
      exact Token.isEnd_eq_false.mp (isEnd_of_mem_tokenize t mem) isEnd
    · have places := congrArg (List.map (Option.map Span.offset))
        (Piece.span_tokens (Span.start.across d.lead) d.pieces)
      rw [tokens, TokenQueue.toList, List.map_append]
      simp only [List.map_map] at places
      simp only [TokenQueue.closing, Function.comp_def] at places ⊢
      rw [places]
      simp [Division.before, Span.offset_across, Span.start, String.length_toList]
  · intro words isWords
    have divides : (⟨[], Piece.spaced words⟩ : Division).Divides
        (" ".intercalate words).toList :=
      ⟨(Piece.allChars_spaced words).symm, .nil, Piece.fits_spaced isWords⟩
    rw [texts_tokenize, textWords, divides.tokenize_eq, Piece.text_tokens, Piece.word_spaced]

/-- A word that a comment ends, a symbol that a word follows without a gap, and a comment at the end
of the text. -/
theorem tokenize_divides_comments :
    (⟨[' '], [⟨"go", "#x\n".toList⟩, ⟨"(", []⟩, ⟨"-1", "# end".toList⟩]⟩ : Division).Divides
        " go#x\n(-1# end".toList ∧
      (tokenize " go#x\n(-1# end").texts = ["go", "(", "-1"] ++ [endOfInput] ∧
      (tokenize " go#x\n(-1# end").toList.map (fun t => t.span.map (·.offset)) =
        [some 1, some 6, some 7, some 14] ∧
      (tokenize (" ".intercalate ["go", "(", "-1"])).texts = ["go", "(", "-1"] ++ [endOfInput] := by
  have run : IsWord "go" := .inl ⟨by decide, by decide⟩
  have number : IsWord "-1" := .inl ⟨by decide, by decide⟩
  have symbol : IsWord "(" := .inr ⟨'(', by decide, by decide, by decide, by decide⟩
  have closed : GapBefore ['(', '-', '1', '#', ' ', 'e', 'n', 'd'] "#x\n".toList :=
    @GapBefore.comment _ ['x'] ['\n'] (by decide) (by simp) (.blank (by decide) .nil)
  have last : GapBefore [] "# end".toList :=
    @GapBefore.comment _ [' ', 'e', 'n', 'd'] [] (by decide) (by simp) .nil
  have divides : (⟨[' '], [⟨"go", "#x\n".toList⟩, ⟨"(", []⟩, ⟨"-1", "# end".toList⟩]⟩ :
      Division).Divides " go#x\n(-1# end".toList := by
    refine ⟨by decide, .blank (by decide) .nil, .cons run closed ?_ (.cons symbol .nil ?_
      (.cons number last ?_ .nil))⟩
    all_goals simp [InWordChars, isWordChar]
  obtain ⟨divided, spaced⟩ := tokenize_divides
  obtain ⟨d, -, unique, texts, -, offsets⟩ := divided " go#x\n(-1# end"
  cases unique _ divides
  refine ⟨divides, texts, offsets.trans (by decide), spaced _ ?_⟩
  simp [run, symbol, number]

end RobotLang
