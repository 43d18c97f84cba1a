import RobotLang.Proofs.Faults
import RobotLang.Proofs.ScanLoop

/-!
What an error quotes. Every word that the message of a parse error quotes is the word at which it was
found or a name that has been read before, so it stands in the queue (`quoted_of_program`), and all its
characters stand in the text (`chars_of_tokenize`).
-/

namespace RobotLang

/-! ## Quoted words -/

def Found.words : Found → List String
  | .word text => [text]
  | .endOfInput => []

def KeywordPlace.words : KeywordPlace → List String
  | .afterProgramName name | .afterInstructionName name | .afterInstructionBody name => [name]
  | _ => []

/-- The words of a program that the message quotes. -/
def Fault.words : Fault → List String
  | .keywordDue place found => place.words ++ found.words
  | .branchEndDue found | .conditionDue _ found | .nameDue _ found | .statementDue found
  | .afterStatements found => found.words
  | .notACondition word | .primitiveName word | .duplicateInstruction word => [word]
  | .closingName _ name found | .afterProgram name found => name :: found.words
  | .nestedDeeperThan _ => []

namespace Parser

variable {limit : Option Nat} {t : Token} {fault : Fault} {e : ParseError} {taken : Bool}
  {word : String}

theorem BlockFault.words {found : Found} (h : BlockFault found fault) : fault.words ⊆ found.words := by
  cases h <;> simp [Fault.words, KeywordPlace.words]

/-! ## Names that have been read -/

def DeclarationState.names : DeclarationState → List String
  | .naming => []
  | .named name | .inBody name _ | .closing name _ => [name]

def ProgramState.names : ProgramState → List String
  | .start | .naming => []
  | .named name | .declaring name _ | .inBody name _ _ | .closing name _ _ | .complete name _ _ =>
    [name]
  | .inDeclaration name _ _ d => name :: d.names

/-- The move leads to a state that holds no other names, or to an error that quotes no other words. -/
def Move.Within {σ α : Type} (names : σ → List String) (read : List String) : Move σ α → Prop
  | .shift next => names next ⊆ read
  | .halt _ (.error e) => e.fault.words ⊆ read
  | .halt _ (.ok _) => True

theorem DeclarationState.read_within (s : DeclarationState) (t : Token) :
    (s.read limit t).Within names (s.names ++ [t.text]) := by
  cases s with
  | naming =>
    simp only [read]
    split
    · split <;> simp [Move.Within, Fault.words, names]
    · simp [Move.Within, Move.refuse, Fault.words, Found.words]
  | named | closing =>
    simp only [read]
    split <;>
      simp [Move.Within, Move.refuse, Fault.words, Found.words, KeywordPlace.words, names]
  | inBody name b =>
    simp only [read]
    split
    · simp [Move.Within, names]
    · rename_i refused
      exact List.subset_append_of_subset_right _ (BlockState.blockFault_of_step refused).words
    · split <;>
        simp [Move.Within, Move.refuse, Fault.words, Found.words, KeywordPlace.words, names]

theorem DeclarationState.name_of_ok {s : DeclarationState} {instruction : String} {body : Statement}
    (h : s.read limit t = .halt taken (.ok (instruction, body))) : instruction ∈ s.names := by
  cases s with
  | naming =>
    simp only [read] at h
    split at h
    · split at h <;> cases h
    · cases h
  | named =>
    simp only [read] at h
    split at h <;> cases h
  | inBody =>
    simp only [read] at h
    split at h
    · cases h
    · cases h
    · split at h <;> cases h
  | closing =>
    simp only [read] at h
    split at h <;> cases h
    simp [names]

theorem DeclarationState.words_endFault (s : DeclarationState) :
    (s.endFault limit).words ⊆ s.names := by
  cases s with
  | inBody name b =>
    simp only [endFault]
    cases found : b.endFault? limit with
    | none => simp [Fault.words, Found.words, KeywordPlace.words, names]
    | some fault => simp [List.subset_nil.mp (BlockState.blockFault_of_endFault? found).words]
  | _ => simp [endFault, Fault.words, Found.words, KeywordPlace.words, names]

theorem ProgramState.read_within (s : ProgramState) (t : Token) :
    (s.read limit t).Within names (s.names ++ [t.text]) := by
  cases s with
  | start | naming | named | closing =>
    simp only [read]
    split <;>
      simp [Move.Within, Move.refuse, Fault.words, Found.words, KeywordPlace.words, names]
  | declaring =>
    simp only [read]
    split
    · simp [Move.Within, names, DeclarationState.names]
    · split <;>
        simp [Move.Within, Move.refuse, Fault.words, Found.words, KeywordPlace.words, names]
  | inDeclaration name declared place d =>
    have inside : (d.read limit t).Within DeclarationState.names (d.names ++ [t.text]) :=
      d.read_within t
    simp only [read]
    split
    · rename_i shifted
      rw [shifted] at inside
      exact List.cons_subset_cons name inside
    · rename_i found
      rw [found] at inside
      exact List.subset_cons_of_subset name inside
    · rename_i closed
      split <;> simp [Move.Within, Fault.words, names, DeclarationState.name_of_ok closed]
  | inBody name declared b =>
    simp only [read]
    split
    · simp [Move.Within, names]
    · rename_i refused
      exact List.subset_append_of_subset_right _ (BlockState.blockFault_of_step refused).words
    · split <;>
        simp [Move.Within, Move.refuse, Fault.words, Found.words, KeywordPlace.words, names]
  | complete => simp [read, Move.Within, Move.refuse, Fault.words, Found.words, names]

theorem ProgramState.words_of_finish {s : ProgramState} (h : s.finish limit = .error fault) :
    fault.words ⊆ s.names := by
  cases s with
  | inDeclaration name declared place d =>
    cases h
    exact List.subset_cons_of_subset name d.words_endFault
  | inBody name declared b =>
    cases h
    cases found : b.endFault? limit with
    | none => simp [Fault.words, Found.words, KeywordPlace.words]
    | some fault => simp [List.subset_nil.mp (BlockState.blockFault_of_endFault? found).words]
  | complete => cases h
  | _ =>
    cases h
    simp [Fault.words, Found.words, KeywordPlace.words, names]

/-! ## Errors of programs -/

theorem names_of_moves {ts : List Token} {s : ProgramState} (words : ∀ t ∈ ts, t.isEnd = false)
    (h : (programMachine limit).moves .start ts = .shift s) : s.names ⊆ ts.map (·.text) := by
  refine Machine.moves_invariant (fun state before => state.names ⊆ before) [] (List.nil_subset _)
    ?_ words h
  intro s before t next inside _ shifted
  have within : (s.read limit t).Within ProgramState.names (s.names ++ [t.text]) := s.read_within t
  rw [show s.read limit t = .shift next from shifted] at within
  refine List.Subset.trans within (List.append_subset.mpr ⟨?_, List.subset_append_right ..⟩)
  exact List.Subset.trans inside (List.subset_append_left ..)

theorem quoted_of_program {q : TokenQueue} (h : (program limit q).result = .error e) :
    e.fault.words ⊆ q.texts := by
  obtain ⟨taken, left, split, words, moved, stops⟩ := (programMachine limit).run_stops .start q
  -- The run has stopped at the front of what is left, and the names that are held were read before.
  have names := names_of_moves words moved
  have before : taken.map (·.text) ⊆ q.texts := by simp [TokenQueue.texts, split]
  have front : [left.front.text] ⊆ q.texts := by
    obtain ⟨rest, ahead⟩ := left.toList_eq_cons
    simp [TokenQueue.texts, split, ahead]
  have refused {s : ProgramState} {kept : Bool} (names : s.names ⊆ taken.map (·.text))
      (halts : s.read limit left.front = .halt kept (.error e)) : e.fault.words ⊆ q.texts := by
    have within : (s.read limit left.front).Within ProgramState.names _ := s.read_within left.front
    rw [halts] at within
    exact List.Subset.trans within
      (List.append_subset.mpr ⟨List.Subset.trans names before, front⟩)
  unfold program at h
  generalize (programMachine limit).run .start q = run at h names stops
  cases stops with
  | @atEnd s _ =>
    have h : (s.finish limit).mapError (⟨·, left.front.span⟩) = .error e := h
    cases finished : s.finish limit with
    | ok p =>
      rw [finished] at h
      cases h
    | error fault =>
      rw [finished] at h
      cases h
      exact List.Subset.trans (ProgramState.words_of_finish finished)
        (List.Subset.trans names before)
  | @leaving s result _ halts | @taking s result _ halts =>
    cases show result = .error e from h
    exact refused names halts

end Parser

/-! ## Characters of tokens -/

namespace Scanner

/-- The completed tokens are written in these characters. -/
def SpelledIn (s : Scanner) (cs : List Char) : Prop := ∀ t ∈ s.completed, t.text.toList ⊆ cs

variable {s : Scanner} {cs : List Char}

theorem SpelledIn.step (spelled : s.SpelledIn cs) (c : Char) : (s.step c).SpelledIn (cs ++ [c]) := by
  have stepped := s.stepCase c
  have kept : s.SpelledIn (cs ++ [c]) := fun t mem =>
    List.subset_append_of_subset_left _ (spelled t mem)
  generalize s.step c = next at stepped
  cases stepped with
  | inComment mode =>
    intro t mem
    refine kept t ?_
    by_cases newline : c = '\n' <;> simpa [completed, mode, newline] using mem
  | inWord mode =>
    simp only [SpelledIn, completed, mode] at kept ⊢
    obtain ⟨word, older⟩ := List.forall_mem_cons.mp kept
    exact List.forall_mem_cons.mpr ⟨by simpa using word, older⟩
  | comment | blank => exact kept
  | word | single =>
    refine List.forall_mem_cons.mpr ⟨?_, kept⟩
    simp

theorem SpelledIn.scan (spelled : s.SpelledIn cs) (ds : List Char) :
    (s.scan ds).SpelledIn (cs ++ ds) := by
  induction ds generalizing s cs with
  | nil =>
    rw [List.append_nil]
    exact spelled
  | cons d ds ih =>
    rw [scan_cons, List.append_cons]
    exact ih (spelled.step d)

end Scanner

theorem chars_of_tokenize {text : String} {t : Token} (mem : t ∈ (tokenize text).tokens) :
    t.text.toList ⊆ text.toList := by
  have spelled : Scanner.start.SpelledIn [] := by
    simp [Scanner.SpelledIn, Scanner.start, Scanner.completed]
  have scanned := spelled.scan text.toList
  rw [List.nil_append] at scanned
  exact scanned t (by simpa [tokenize, Scanner.finish] using mem)

end RobotLang
