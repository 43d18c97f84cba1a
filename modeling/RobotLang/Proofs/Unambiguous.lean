import RobotLang.Proofs.RoundTrip

/-!
Canonical text tells what it was written for. Without a nesting limit the parsers read the words of a
block and the text of a program back however deep its statements are nested, so blocks with the same
words are the same (`Body.eq_of_words`), and so are programs with the same text
(`Program.WellFormed.eq_of_text`). Main statement: this is so for all that commands come to, and
fingerprints are the same only where the digest does not tell texts apart
(`Workbench.Reachable.text_determines`).
-/

namespace RobotLang

open RobotLang.Parser Statement

variable {p q : Program} {a b : Statement}

/-! ## Words -/

theorem Statement.Body.eq_of_words {ss ts : List Statement} (left : Body ss) (right : Body ts)
    (same : wordsAll ss = wordsAll ts) : ss = ts := by
  have read {body : List Statement} (shaped : Body body) :
      BlockState.start.steps none (wordsAll body) = .shift ⟨[], body.reverse, .statement⟩ := by
    rw [BlockState.steps_wordsAll none shaped, if_pos (allows_none _)]
  have states := read left
  rw [same, read right] at states
  simpa using states.symm

theorem eq_of_texts (isBlockA : a.kind = .block) (shapedA : a.WellShaped) (isBlockB : b.kind = .block)
    (shapedB : b.WellShaped) {m n : Nat}
    (same : (tokenize (a.text m)).texts = (tokenize (b.text n)).texts) : a = b := by
  rw [eq_block_of_kind isBlockA] at shapedA same ⊢
  rw [eq_block_of_kind isBlockB] at shapedB same ⊢
  have left := wellShaped_block_iff.mp shapedA
  have right := wellShaped_block_iff.mp shapedB
  rw [texts_block left, texts_block right] at same
  rw [left.eq_of_words right (List.append_cancel_right same)]

/-! ## Texts -/

theorem parse_unlimited (formed : p.WellFormed) :
    (Parser.program none (tokenize p.text)).result = .ok p := by
  have written := formed.written
  obtain ⟨words, split⟩ :=
    TokenQueue.split_of_texts (texts_program written.named written.fit written.body)
  rw [program_of_words written split words rfl]

theorem Program.WellFormed.eq_of_text (left : p.WellFormed) (right : q.WellFormed)
    (same : p.text = q.text) : p = q := by
  have read := parse_unlimited left
  rw [same, parse_unlimited right] at read
  exact (Except.ok.inj read).symm

/-- The digest does not tell the bytes apart. -/
def Digest.Collides (xs ys : List UInt8) : Prop := xs ≠ ys ∧ sha256 xs = sha256 ys

theorem Program.WellFormed.eq_or_collides (left : p.WellFormed) (right : q.WellFormed)
    (same : p.fingerprint = q.fingerprint) :
    p = q ∨ Digest.Collides (Text.encode p.text) (Text.encode q.text) := by
  by_cases bytes : Text.encode p.text = Text.encode q.text
  · exact .inl (left.eq_of_text right (Text.encode_injective bytes))
  · exact .inr ⟨bytes, same⟩

/-! ## What commands come to -/

namespace Workbench

/-- Programs with the same canonical text are the same, and so are blocks whose texts, however far
they are indented, have the same words. Nothing is said of how deep they are nested. -/
theorem Reachable.text_determines {v w : Workbench} (left : v.Reachable) (right : w.Reachable) :
    (∀ m n, (v.program m).text = (w.program n).text → v.program m = w.program n) ∧
    (∀ a b m n, v.Holds a → w.Holds b → a.kind = .block → b.kind = .block →
      (tokenize (a.text m)).texts = (tokenize (b.text n)).texts → a = b) ∧
    ∀ m n, (v.program m).fingerprint = (w.program n).fingerprint →
      v.program m = w.program n ∨
        Digest.Collides (Text.encode (v.program m).text) (Text.encode (w.program n).text) := by
  have formedLeft := left.sound.programs
  have formedRight := right.sound.programs
  refine ⟨fun m n same => ?_, fun a b m n heldA heldB isBlockA isBlockB same => ?_,
    fun m n same => ?_⟩
  · exact (formedLeft m).eq_of_text (formedRight n) same
  · exact eq_of_texts isBlockA (left.holds heldA) isBlockB (right.holds heldB) same
  · exact (formedLeft m).eq_or_collides (formedRight n) same

/-- The IF of `enclosing`, read from a text in which other words are joined to it. -/
def reading : List Command :=
  [.readStatements "outer" "IF next-is-wall THEN # a wall\nmove END IF", .copy "s" "outer",
    .replaceBody "p" "s"]

theorem text_determines_built_and_read :
    ((empty.run enclosing).run [.replaceBody "p" "outer"]).program "p" =
        (empty.run reading).program "p" ∧
      (empty.run enclosing).statement "outer" = (empty.run reading).statement "outer" := by
  have built := Reachable.empty.run enclosing
  have read := Reachable.empty.run reading
  have replaced := built.run [.replaceBody "p" "outer"]
  have sameText : (((empty.run enclosing).run [.replaceBody "p" "outer"]).program "p").text =
      ((empty.run reading).program "p").text := by decide +kernel
  have sameWords : (tokenize (((empty.run enclosing).statement "outer").text 0)).texts =
      (tokenize (((empty.run reading).statement "outer").text 7)).texts := by decide +kernel
  exact ⟨(replaced.text_determines read).1 "p" "p" sameText,
    (built.text_determines read).2.1 _ _ 0 7 (.register "outer") (.register "outer") rfl rfl
      sameWords⟩

end Workbench

end RobotLang
