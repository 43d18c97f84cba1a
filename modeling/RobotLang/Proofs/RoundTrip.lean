import RobotLang.Proofs.CanonicalWords
import RobotLang.Proofs.Reachable

/-!
Canonical text is read back. The text of a block or program of the right shape is parsed to that
block or program if its statements are nested within the limit, and refused as nested too deep if
they are not (`parse_statement_text`, `parse_program_text`). Main statement: this is so for all
statements and programs that commands come to, and for all programs that are parsed
(`Reachable.readsBack`).
-/

namespace RobotLang

open RobotLang.Parser Statement

/-- The parser has refused statements that are nested too deep. -/
def TooDeep {α : Type} (result : Except ParseError α) : Prop :=
  ∃ e, result = .error e ∧ e.fault.kind = .nestingTooDeep

/-! ## Statements -/

theorem block_of_words {limit : Option Nat} {q left : TokenQueue} {ts : List Token}
    {body : List Statement} (shaped : Body body) (fits : Allows limit (depthAll body))
    (split : q.toList = ts ++ left.toList) (texts : ts.map (·.text) = wordsAll body)
    (ended : left.atEnd = true) :
    Parser.block limit q = ⟨⟨[], body.reverse, .statement⟩, .ok (.block body), left⟩ := by
  have words := Token.isEnd_of_texts texts (endOfInput_not_mem_wordsAll shaped)
  cases block_reading limit shaped texts with
  | through _ _ moved =>
    rw [Parser.block, Machine.run_of_moves split words moved, Machine.run_of_atEnd ended]
    have complete : (⟨[], body.reverse, .statement⟩ : BlockState).endFault? limit = none :=
      BlockState.endFault?_eq_none_iff.mpr ⟨rfl, rfl⟩
    simp [blockMachine, complete, BlockState.block]
  | tooDeep deep => exact absurd fits deep
  | repeated old => exact absurd trivial old

theorem block_tooDeep {limit : Option Nat} {q left : TokenQueue} {ts : List Token}
    {body : List Statement} (shaped : Body body) (deep : ¬ Allows limit (depthAll body))
    (split : q.toList = ts ++ left.toList) (texts : ts.map (·.text) = wordsAll body) :
    TooDeep (Parser.block limit q).result := by
  have words := Token.isEnd_of_texts texts (endOfInput_not_mem_wordsAll shaped)
  cases block_reading limit shaped texts with
  | through fits => exact absurd fits deep
  | tooDeep _ halted kind => exact ⟨_, Machine.result_of_halt split words halted, kind⟩
  | repeated old => exact absurd trivial old

theorem parse_words {text : String} {body : List Statement} (shaped : Body body)
    (texts : (tokenize text).texts = wordsAll body ++ [endOfInput]) :
    (depthAll body ≤ nestingLimit → Statement.parse text = .ok (.block body)) ∧
      (nestingLimit < depthAll body → TooDeep (Statement.parse text)) := by
  obtain ⟨words, split⟩ := TokenQueue.split_of_texts texts
  constructor
  · intro fits
    have read := block_of_words shaped (allows_some.mpr fits) split words rfl
    simp only [Statement.parse, statements, read]
    rfl
  · intro deep
    have deep : ¬ Allows (some nestingLimit) (depthAll body) :=
      fun allowed => absurd deep (Nat.not_lt.mpr (allows_some.mp allowed))
    obtain ⟨e, refused, kind⟩ := block_tooDeep shaped deep split words
    exact ⟨e, by simp only [Statement.parse, statements, refused], kind⟩

theorem parse_block_text {s : Statement} (isBlock : s.kind = .block) (shaped : s.WellShaped)
    (indent : Nat) :
    (s.depth ≤ nestingLimit → Statement.parse (s.text indent) = .ok s) ∧
      (nestingLimit < s.depth → TooDeep (Statement.parse (s.text indent))) := by
  rw [eq_block_of_kind isBlock] at shaped ⊢
  have body := wellShaped_block_iff.mp shaped
  exact parse_words body (texts_block body indent)

theorem parse_item_text {s : Statement} (item : s.Item) (fits : s.depth ≤ nestingLimit)
    (indent : Nat) : Statement.parse (s.text indent) = .ok (.block [s]) := by
  have body : Body [s] := body_of_items [s] (by simpa using item)
  have texts : (tokenize (s.text indent)).texts = wordsAll [s] ++ [endOfInput] := by
    simpa [wordsAll] using texts_item item indent
  exact (parse_words body texts).1 (by simpa [depthAll] using fits)

/-! ## Programs -/

/-- All bodies of the program are within the nesting limit. -/
def Program.FitsLimit (p : Program) : Prop :=
  p.body.depth ≤ nestingLimit ∧ ∀ entry ∈ p.context.entries, entry.2.depth ≤ nestingLimit

theorem Program.WellFormed.written {p : Program} (formed : p.WellFormed) :
    WrittenWith none p p.context.entries := by
  have block {s : Statement} (h : s.kind = .block ∧ s.WellShaped) : BlockAt none 0 s :=
    blockAt_iff.mpr ⟨h.1, h.2, allows_none _⟩
  exact ⟨formed.name, fun d mem => ⟨formed.names d mem, block (formed.bodies d mem)⟩,
    p.context.nodup_names, .refl _, block formed.body⟩

theorem Program.WellFormed.writtenWithin {p : Program} (formed : p.WellFormed)
    (fits : p.FitsLimit) : WrittenWith (some nestingLimit) p p.context.entries := by
  have within {s : Statement} (h : BlockAt none 0 s) (fits : s.depth ≤ nestingLimit) :
      BlockAt (some nestingLimit) 0 s :=
    blockAt_some_iff.mpr ⟨(blockAt_iff.mp h).1, (blockAt_iff.mp h).2.1, fits⟩
  have written := formed.written
  exact { written with
    fit := fun d mem => ⟨(written.fit d mem).1, within (written.fit d mem).2 (fits.2 d mem)⟩
    body := within written.body fits.1 }

theorem parse_program_text {p : Program} (formed : p.WellFormed) :
    (p.FitsLimit → Program.parse p.text = .ok p) ∧
      (¬ p.FitsLimit → TooDeep (Program.parse p.text)) := by
  have written := formed.written
  have texts := texts_program written.named written.fit written.body
  obtain ⟨words, split⟩ := TokenQueue.split_of_texts texts
  constructor
  · intro fits
    rw [Program.parse, program_of_words (formed.writtenWithin fits) split words rfl]
  · intro deep
    have absent := Token.isEnd_of_texts words
      (endOfInput_not_mem_programWords written.named written.fit written.body)
    cases program_reading (some nestingLimit) written.named written.fit written.body words with
    | through fits =>
      simp only [allows_some] at fits
      exact absurd ⟨fits.2, fits.1⟩ deep
    | tooDeep _ halted kind => exact ⟨_, Machine.result_of_halt split absent halted, kind⟩
    | repeated old => exact absurd written.distinct old

theorem fitsLimit_of_parse {text : String} {p : Program} (h : Program.parse text = .ok p) :
    p.FitsLimit := by
  obtain ⟨declarations, -, written, -⟩ := words_of_program h
  constructor
  · exact allows_some.mp written.body.allows
  · intro entry mem
    exact allows_some.mp (written.fit entry (written.declares.mem_iff.mp mem)).2.allows

/-! ## What commands come to -/

/-- All that commands come to is read back from its canonical text, up to the nesting limit and no
further, and so is all that is parsed. -/
theorem Workbench.Reachable.readsBack {w : Workbench} (reached : w.Reachable) :
    (∀ name, ((w.program name).FitsLimit →
        Program.parse (w.program name).text = .ok (w.program name)) ∧
      (¬ (w.program name).FitsLimit → TooDeep (Program.parse (w.program name).text))) ∧
    (∀ s indent, w.Holds s →
      (s.kind = .block → s.depth ≤ nestingLimit → Statement.parse (s.text indent) = .ok s) ∧
      (s.kind = .block → nestingLimit < s.depth → TooDeep (Statement.parse (s.text indent))) ∧
      (s.kind ≠ .block → s.depth ≤ nestingLimit →
        Statement.parse (s.text indent) = .ok (.block [s]))) ∧
    (∀ text p, Program.parse text = .ok p →
      Program.parse p.text = .ok p ∧ (Program.parse p.text).map Program.text = .ok p.text) := by
  refine ⟨fun name => ?_, fun s indent held => ⟨?_, ?_, ?_⟩, fun text p parsed => ?_⟩
  · exact parse_program_text (reached.sound.programs name)
  · intro isBlock fits
    exact (parse_block_text isBlock (reached.holds held) indent).1 fits
  · intro isBlock deep
    exact (parse_block_text isBlock (reached.holds held) indent).2 deep
  · intro notBlock fits
    exact parse_item_text ⟨notBlock, reached.holds held⟩ fits indent
  · have back := (parse_program_text (wellFormed_of_program parsed)).1 (fitsLimit_of_parse parsed)
    rw [back]
    exact ⟨rfl, rfl⟩

namespace Workbench

theorem statement_after_enclose {w : Workbench} (isBlock : (w.statement "b").kind = .block) :
    ((w.after (.assembleIf "s" .random "b")).after (.insert "b" 0 "s")).statement "b" =
      .block [.node (.ifThen .random) [w.statement "b"]] := by
  have first : w.after (.assembleIf "s" .random "b") =
      (w.setStatement "b" .empty).setStatement "s" (.node (.ifThen .random) [w.statement "b"]) := by
    simp [after, apply, take, Statement.assembleIf, demandBlock, isBlock, Statement.assemble,
      Label.accepts, ok, bind, Except.bind]
  rw [first]
  simp [after, apply, take, Statement.insert, demandKind, statement_setStatement,
    Statement.assemble, Label.accepts, ok, bind, Except.bind, Statement.kind, label, Label.kind,
    parts, Statement.empty, Statement.block, children]

theorem exists_reachable_depth (n : Nat) :
    ∃ w : Workbench, w.Reachable ∧
      (w.statement "b").kind = .block ∧ (w.statement "b").depth = n := by
  induction n with
  | zero => exact ⟨empty, .empty, rfl, rfl⟩
  | succ n ih =>
    obtain ⟨w, reached, isBlock, deep⟩ := ih
    have enclosed := statement_after_enclose isBlock
    refine ⟨_, (reached.command _).command _, by rw [enclosed]; rfl, ?_⟩
    rw [eq_block_of_kind isBlock, depth_block] at deep
    rw [enclosed, eq_block_of_kind isBlock, depth_block, depthAll, depth_ifThen, deep]
    simp [depthAll, Nat.add_comm]

theorem readsBack_enclosed :
    (empty.run enclosing).Reachable ∧
      Statement.parse (((empty.run enclosing).statement "outer").text 2) =
        .ok ((empty.run enclosing).statement "outer") ∧
      ∃ w : Workbench, w.Reachable ∧ TooDeep (Statement.parse ((w.statement "b").text 0)) := by
  have reached := Reachable.empty.run enclosing
  have fits : ((empty.run enclosing).statement "outer").depth ≤ nestingLimit := by decide +kernel
  obtain ⟨w, reachedDeep, isBlock, deep⟩ := exists_reachable_depth (nestingLimit + 1)
  have beyond : nestingLimit < (w.statement "b").depth := by rw [deep]; exact Nat.lt_succ_self _
  exact ⟨reached, (reached.readsBack.2.1 _ 2 (.register "outer")).1 rfl fits, w, reachedDeep,
    (reachedDeep.readsBack.2.1 _ 0 (.register "b")).2.1 isBlock beyond⟩

end Workbench

end RobotLang
