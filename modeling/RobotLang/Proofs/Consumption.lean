import RobotLang.Proofs.Reachable
import RobotLang.Proofs.StatementAcceptance

/-!
What becomes of a queue that is read. Only words are ever taken, from the front, one after the other
(`TokenQueue.ReadsTo`). Dequeuing does no more than that, nor does any run of a machine, whether it
accepts or refuses, so neither does a command that puts no new queue on the workbench
(`readsTo_apply`); and reading goes on in the same way from one command to the next
(`readsTo_run`).

Main statement: `Workbench.run_reads_words`.
-/

namespace RobotLang

/-! ## Words and end tokens of a queue -/

namespace TokenQueue

variable {q between left : TokenQueue} {taken : List Token}

/-- The tokens that can be taken: those before the first end token. -/
def readable (q : TokenQueue) : List Token := q.toList.takeWhile fun t => !t.isEnd

theorem readable_of_atEnd (ended : q.atEnd = true) : q.readable = [] := by
  obtain ⟨rest, split⟩ := q.toList_eq_cons
  rw [readable, split, List.takeWhile_cons_of_neg]
  simpa using show q.front.isEnd = true from ended

theorem readable_of_goesOn (goesOn : q.atEnd = false) :
    q.readable = q.front :: q.dequeue.2.readable := by
  rw [readable, toList_dequeue goesOn, List.takeWhile_cons_of_pos]
  · rfl
  · simpa using show q.front.isEnd = false from goesOn

theorem readable_eq_nil_iff : q.readable = [] ↔ q.atEnd = true := by
  cases h : q.atEnd with
  | true => simp [readable_of_atEnd h]
  | false => simp [readable_of_goesOn h]

theorem readable_of_split (split : q.toList = taken ++ left.toList)
    (words : ∀ t ∈ taken, t.isEnd = false) : q.readable = taken ++ left.readable := by
  rw [readable, split, List.takeWhile_append_of_pos]
  · rfl
  · simpa using words

theorem getLast?_toList (q : TokenQueue) : q.toList.getLast? = some q.closing := by
  simp [toList]

/-- Dequeuing shows the words that can be taken, and the end of the input from then on. -/
theorem dequeueMany_fst (q : TokenQueue) (count : Nat) :
    (q.dequeueMany count).1 =
      (q.readable.map (·.text)).take count ++
        List.replicate (count - q.readable.length) endOfInput := by
  induction count generalizing q with
  | zero => simp [dequeueMany]
  | succ count ih =>
    simp only [dequeueMany, ih]
    cases h : q.atEnd with
    | true =>
      simp [dequeue_of_atEnd h, readable_of_atEnd h, List.replicate_succ]
    | false =>
      simp [dequeue_fst, readable_of_goesOn h, Nat.add_sub_add_right]

/-! ## Reading words off the front -/

/-- The second queue is what is left of the first when some words have been taken. -/
def ReadsTo (q left : TokenQueue) : Prop :=
  ∃ taken, q.toList = taken ++ left.toList ∧ ∀ t ∈ taken, t.isEnd = false

theorem ReadsTo.refl (q : TokenQueue) : q.ReadsTo q := ⟨[], rfl, by simp⟩

theorem ReadsTo.trans (first : q.ReadsTo between) (second : between.ReadsTo left) :
    q.ReadsTo left := by
  obtain ⟨taken, split, words⟩ := first
  obtain ⟨more, split', words'⟩ := second
  refine ⟨taken ++ more, by rw [split, split', List.append_assoc], fun t mem => ?_⟩
  exact (List.mem_append.mp mem).elim (words t) (words' t)

theorem readsTo_dequeue (q : TokenQueue) : q.ReadsTo q.dequeue.2 := by
  cases h : q.atEnd with
  | true =>
    rw [dequeue_of_atEnd h]
    exact .refl q
  | false =>
    have word : q.front.isEnd = false := h
    exact ⟨[q.front], toList_dequeue h, by simpa using word⟩

theorem readsTo_dequeueMany (count : Nat) (q : TokenQueue) :
    q.ReadsTo (q.dequeueMany count).2 := by
  induction count generalizing q with
  | zero => exact .refl q
  | succ count ih => exact q.readsTo_dequeue.trans (ih _)

/-- At the end of the input there is nothing to take. -/
theorem ReadsTo.eq_of_atEnd (reads : q.ReadsTo left) (ended : q.atEnd = true) : left = q := by
  obtain ⟨taken, split, words⟩ := reads
  cases taken with
  | nil => exact (toList_eq_append.mp split).symm
  | cons t taken =>
    obtain ⟨rest, front⟩ := q.toList_eq_cons
    rw [front, List.cons_append, List.cons.injEq] at split
    have word := words t List.mem_cons_self
    rw [← split.1] at word
    exact absurd (ended.symm.trans word) (by decide)

end TokenQueue

/-! ## Parsers -/

namespace Parser

variable {limit : Option Nat} {q : TokenQueue} {s : Statement}

theorem Machine.readsTo_rest {σ α : Type} (m : Machine σ α) (state : σ) (q : TokenQueue) :
    q.ReadsTo (m.run state q).rest := by
  obtain ⟨taken, left, split, words, -, stops⟩ := m.run_stops state q
  have reads : q.ReadsTo left := ⟨taken, split, words⟩
  generalize m.run state q = run at stops ⊢
  cases stops with
  | atEnd | leaving => exact reads
  | taking => exact reads.trans left.readsTo_dequeue

/-- A statement is never read from nothing. -/
theorem length_rest_of_statement (accepted : (statement limit q).result = .ok s) :
    (statement limit q).rest.length < q.length := by
  obtain ⟨fits, ts, split, texts⟩ := statement_accepts_iff.mp ⟨accepted, rfl⟩
  have begun : ts ≠ [] := by
    rintro rfl
    exact words_ne_nil fits.1 texts.symm
  have lengths := congrArg List.length split
  simp only [TokenQueue.toList, List.length_append, List.length_singleton] at lengths
  have positive := List.length_pos_iff.mpr begun
  simp only [TokenQueue.length]
  omega

end Parser

/-! ## Commands -/

namespace Workbench

variable {w : Workbench}

/-- Whether a command puts a new queue on the workbench. -/
def Command.loads : Command → Bool
  | .tokenize _ => true
  | .queueWords _ => true
  | _ => false

theorem queue_takeAll (w : Workbench) (names : List String) :
    (w.takeAll names).2.queue = w.queue := by
  induction names generalizing w with
  | nil => rfl
  | cons name names ih => exact ih (w.take name).2

theorem queue_setStatements (w : Workbench) (writes : List (String × Statement)) :
    (w.setStatements writes).queue = w.queue := by
  induction writes generalizing w with
  | nil => rfl
  | cons write writes ih => exact ih (w.setStatement write.1 write.2)

theorem queue_parseInto {σ : Type} (w : Workbench) (target : String)
    (run : Parser.Run σ Statement) : (w.parseInto target run).2.queue = run.rest := by
  unfold parseInto
  split <;> rfl

theorem queue_parseProgramInto (w : Workbench) (target : String) :
    (w.parseProgramInto target).2.queue =
      (Parser.program (some Parser.nestingLimit) w.queue).rest := by
  simp only [parseProgramInto]
  split <;> rfl

theorem readsTo_parseInstructionInto {target : String} {result : Result}
    (h : w.parseInstructionInto target = .ok result) : w.queue.ReadsTo result.2.queue := by
  obtain ⟨run, parsed, h⟩ := ok_of_bind h
  obtain ⟨-, rfl⟩ := Parser.declaration_eq_ok_iff.mp parsed
  have reads := w.queue.readsTo_dequeue.trans
    ((Parser.declarationMachine (some Parser.nestingLimit)).readsTo_rest .naming w.queue.dequeue.2)
  cases h
  simp only
  split <;> exact reads

/-- Unless it loads a queue, a command takes words off the one that is there, or leaves it alone. -/
theorem readsTo_apply {command : Command} {result : Result} (kept : command.loads = false)
    (h : w.apply command = .ok result) : w.queue.ReadsTo result.2.queue := by
  have same : ∀ {next : Workbench}, next.queue = w.queue → w.queue.ReadsTo next.queue :=
    fun unchanged => unchanged ▸ .refl _
  cases command with
  | tokenize | queueWords => cases kept
  | dequeue count =>
    cases h
    exact w.queue.readsTo_dequeueMany count
  | parseStatement | parseBlock =>
    cases h
    rw [queue_parseInto]
    exact Parser.Machine.readsTo_rest _ _ _
  | parseIf =>
    obtain ⟨run, parsed, h⟩ := ok_of_bind h
    obtain ⟨-, rfl⟩ := Parser.ifStatement_eq_ok_iff.mp parsed
    cases h
    rw [queue_parseInto]
    exact Parser.Machine.readsTo_rest _ _ _
  | parseWhile =>
    obtain ⟨run, parsed, h⟩ := ok_of_bind h
    obtain ⟨-, rfl⟩ := Parser.whileStatement_eq_ok_iff.mp parsed
    cases h
    rw [queue_parseInto]
    exact Parser.Machine.readsTo_rest _ _ _
  | parseCall =>
    obtain ⟨⟨s, queue⟩, parsed, h⟩ := ok_of_bind h
    obtain ⟨-, rfl, rfl⟩ := Parser.callStatement_eq_ok_iff.mp parsed
    cases h
    exact w.queue.readsTo_dequeue
  | parseInstruction => exact readsTo_parseInstructionInto h
  | parseProgram =>
    cases h
    rw [queue_parseProgramInto]
    exact Parser.Machine.readsTo_rest _ _ _
  | readStatements | readProgram | copyChild =>
    simp only [apply] at h
    split at h <;> cases h <;> exact same rfl
  | assemble target label children =>
    obtain ⟨_, -, h⟩ := ok_of_bind h
    cases h
    exact same (queue_takeAll w children)
  | replaceContext target bodies =>
    obtain ⟨_, -, h⟩ := ok_of_bind h
    cases h
    exact same (queue_takeAll w _)
  | disassemble target names =>
    cases h
    exact same (queue_setStatements _ _)
  | remove | disassembleIf | disassembleIfElse | disassembleWhile =>
    obtain ⟨_, -, h⟩ := ok_of_bind h
    cases h
    exact same (queue_setStatements _ _)
  | blockLength | insert | assembleIf | assembleIfElse | assembleWhile | assembleCall
  | disassembleCall | setName | replaceBody =>
    obtain ⟨_, -, h⟩ := ok_of_bind h
    cases h
    exact same rfl
  | showQueue | copy | inspect | transfer | clear | accepts | same | print | newProgram
  | showProgram | sameProgram | instruction | copyBody =>
    cases h
    exact same rfl

theorem readsTo_after {command : Command} (kept : command.loads = false) :
    w.queue.ReadsTo (w.after command).queue := by
  unfold after
  split
  · rename_i done
    exact readsTo_apply kept done
  · exact .refl _

theorem readsTo_run {commands : List Command} (kept : ∀ c ∈ commands, c.loads = false) :
    w.queue.ReadsTo (w.run commands).queue := by
  induction commands generalizing w with
  | nil => exact .refl _
  | cons command commands ih =>
    obtain ⟨first, after⟩ := List.forall_mem_cons.mp kept
    exact (readsTo_after first).trans (ih after)

/-! ## Main statement -/

/-- Whatever is done with a queue, what is left of it is the queue from some token on, and no end
token has been taken: it is never empty, still closes with its old last token, and comes to an end
token exactly when all words before the first one have been taken. From there on nothing changes,
and until then dequeuing shows those words one by one. A statement that is read takes some of them. -/
theorem run_reads_words (w : Workbench) (commands : List Command)
    (kept : ∀ c ∈ commands, c.loads = false) :
    let q := w.queue
    let left := (w.run commands).queue
    (∃ taken, q.toList = taken ++ left.toList ∧ taken <+: q.readable ∧
      (left.atEnd = true ↔ taken = q.readable)) ∧
    left.toList ≠ [] ∧
    left.toList.getLast? = q.toList.getLast? ∧
    q.toList.getLast?.map (·.text) = some endOfInput ∧
    (left.atEnd = true → left.dequeue = (endOfInput, left) ∧
      ∀ more : List Command, (∀ c ∈ more, c.loads = false) →
        (w.run (commands ++ more)).queue = left) ∧
    (∀ count, (left.dequeueMany count).1 =
      (left.readable.map (·.text)).take count ++
        List.replicate (count - left.readable.length) endOfInput) ∧
    ∀ limit s, (Parser.statement limit left).result = .ok s →
      (Parser.statement limit left).rest.length < left.length := by
  intro q left
  obtain ⟨taken, split, words⟩ : q.ReadsTo left := readsTo_run kept
  have readable := TokenQueue.readable_of_split split words
  refine ⟨⟨taken, split, ⟨_, readable.symm⟩, ?_⟩, by simp [TokenQueue.toList], ?_, ?_,
    fun ended => ⟨TokenQueue.dequeue_of_atEnd ended, fun more keptMore => ?_⟩,
    fun count => left.dequeueMany_fst count,
    fun limit s accepted => Parser.length_rest_of_statement accepted⟩
  · rw [← TokenQueue.readable_eq_nil_iff, readable]
    exact ⟨fun none => by simp [none], fun all => by simpa using all⟩
  · rw [split, List.getLast?_append, left.getLast?_toList, Option.some_or]
  · rw [q.getLast?_toList]
    rfl
  · rw [run, List.foldl_append]
    exact (readsTo_run keptMore).eq_of_atEnd ended

/-- A call is read, a block is read that ends at the first end token, and a program is refused. -/
theorem run_reads_words_past_end :
    let w : Workbench := { empty with queue := .ofTexts ["move", "skip", endOfInput, "END"] }
    let commands : List Command := [.parseStatement "s", .parseBlock "t", .parseProgram "p"]
    (∀ c ∈ commands, c.loads = false) ∧
      (w.run commands).queue.toList.getLast? = w.queue.toList.getLast? ∧
      (w.run commands).queue = .ofTexts [endOfInput, "END"] := by
  intro w commands
  have kept : ∀ c ∈ commands, c.loads = false := by decide
  obtain ⟨-, -, last, -⟩ := run_reads_words w commands kept
  exact ⟨kept, last, by decide +kernel⟩

end Workbench

end RobotLang
