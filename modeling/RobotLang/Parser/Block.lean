import RobotLang.Parser.Machine
import RobotLang.Token.Scanner
import RobotLang.Statement.Assembly

/-!
Parsing statements and blocks.

    statement ::= if | while | call
    if        ::= IF condition THEN block [ ELSE block ] END IF
    while     ::= WHILE condition DO block END WHILE
    call      ::= identifier
    block     ::= statement*

One token decides each step. The state of the parser holds the statements read so far in the innermost
open block, and for each IF and WHILE around it a frame that says how to go on when that block ends. A
block that is opened inside more IF and WHILE statements than the nesting limit allows is refused at
its first token, whatever that is.
-/

namespace RobotLang.Parser

/-- The number of IF and WHILE statements that may enclose a block. -/
def nestingLimit : Nat := 256

/-- The block of an IF or WHILE that is being read. -/
inductive Part where
  | thenBlock
  /-- The second block of an IF, behind the first. -/
  | elseBlock (yes : Statement)
  | whileBlock

namespace Part

def construct : Part → Construct
  | thenBlock => .«if»
  | elseBlock _ => .«if»
  | whileBlock => .«while»

def close (condition : Condition) (block : Statement) : Part → Statement
  | thenBlock => .node (.ifThen condition) [block]
  | elseBlock yes => .node (.ifElse condition) [yes, block]
  | whileBlock => .node (.whileDo condition) [block]

/-- What is wrong when the block ends at something that cannot end it. -/
def endDue (found : Found) : Part → Fault
  | thenBlock => .branchEndDue found
  | elseBlock _ => .keywordDue (.afterBlock .«if») found
  | whileBlock => .keywordDue (.afterBlock .«while») found

end Part

/-- An open IF or WHILE: what stands before it in its block, newest first, its condition, and which of
its blocks is being read. -/
structure Frame where
  before : List Statement
  condition : Condition
  part : Part

inductive Point where
  /-- A statement, or the end of the block. -/
  | statement
  | condition (construct : Construct)
  /-- The keyword that opens the block of the statement. -/
  | opening (construct : Construct) (condition : Condition)
  /-- The keyword behind END, which completes the statement. -/
  | closing (construct : Construct) (finished : Statement)

/-- What has been read of a block: the open statements around the innermost open block, innermost
first, the statements of that block, newest first, and what is due next. -/
structure BlockState where
  frames : List Frame
  done : List Statement
  point : Point

inductive BlockStep where
  | shift (next : BlockState)
  /-- The block is complete, and the word does not belong to it. -/
  | close
  | refuse (fault : Fault)

namespace BlockState

def start : BlockState := ⟨[], [], .statement⟩

/-- The block of the statements read so far in the innermost open block. -/
def block (s : BlockState) : Statement := .block s.done.reverse

/-- The limit, if the block being read lies deeper. -/
def exceeded? (limit : Option Nat) (s : BlockState) : Option Nat :=
  limit.filter (· < s.frames.length)

def readEnd (s : BlockState) : BlockStep :=
  match s.frames with
  | [] => .close
  | f :: frames =>
    .shift ⟨frames, f.before, .closing f.part.construct (f.part.close f.condition s.block)⟩

def readElse (s : BlockState) : BlockStep :=
  match s.frames with
  | [] => .close
  | ⟨before, condition, .thenBlock⟩ :: frames =>
    .shift ⟨⟨before, condition, .elseBlock s.block⟩ :: frames, [], .statement⟩
  | f :: _ => .refuse (f.part.endDue (.word Keyword.else.text))

def readStatement (s : BlockState) (word : String) : BlockStep :=
  if word = Keyword.if.text then .shift { s with point := .condition .«if» }
  else if word = Keyword.while.text then .shift { s with point := .condition .«while» }
  else if word = Keyword.end.text then s.readEnd
  else if word = Keyword.else.text then s.readElse
  else if isIdentifier word then .shift { s with done := .call word :: s.done }
  else .refuse (.statementDue (.word word))

def step (limit : Option Nat) (s : BlockState) (word : String) : BlockStep :=
  match s.point with
  | .statement =>
    match s.exceeded? limit with
    | some limit => .refuse (.nestedDeeperThan limit)
    | none => s.readStatement word
  | .condition construct =>
    match Condition.ofSpelling? word with
    | some condition => .shift { s with point := .opening construct condition }
    | none => .refuse (.conditionDue construct (.word word))
  | .opening construct condition =>
    let place := KeywordPlace.afterCondition construct
    let part := match construct with
      | .«if» => Part.thenBlock
      | .«while» => Part.whileBlock
    if word = place.keyword.text then .shift ⟨⟨s.done, condition, part⟩ :: s.frames, [], .statement⟩
    else .refuse (.keywordDue place (.word word))
  | .closing construct finished =>
    let place := KeywordPlace.afterEnd construct
    if word = place.keyword.text then .shift ⟨s.frames, finished :: s.done, .statement⟩
    else .refuse (.keywordDue place (.word word))

/-- What is wrong when the input ends here; nothing, if the block may end. -/
def endFault? (limit : Option Nat) (s : BlockState) : Option Fault :=
  match s.point with
  | .statement =>
    match s.exceeded? limit, s.frames with
    | some limit, _ => some (.nestedDeeperThan limit)
    | none, [] => none
    | none, f :: _ => some (f.part.endDue .endOfInput)
  | .condition construct => some (.conditionDue construct .endOfInput)
  | .opening construct _ => some (.keywordDue (.afterCondition construct) .endOfInput)
  | .closing construct _ => some (.keywordDue (.afterEnd construct) .endOfInput)

/-- Whether the block is complete before a token that cannot belong to it. -/
def closesBefore (limit : Option Nat) (s : BlockState) (t : Token) : Bool :=
  if t.isEnd then (s.endFault? limit).isNone
  else match s.step limit t.text with
    | .close => true
    | _ => false

end BlockState

/-- Reads as many statements as there are, up to END, ELSE or the end of the input. -/
def blockMachine (limit : Option Nat) : Machine BlockState Statement where
  onWord s t :=
    match s.step limit t.text with
    | .shift next => .shift next
    | .close => .halt false (.ok s.block)
    | .refuse fault => .refuse fault t
  onEnd s place :=
    match s.endFault? limit with
    | some fault => .error ⟨fault, place⟩
    | none => .ok s.block

/-- The one statement that has been read, if it is complete. -/
def BlockState.single? (s : BlockState) : Option Statement :=
  match s with
  | ⟨[], [statement], .statement⟩ => some statement
  | _ => none

def statementMachine (limit : Option Nat) : Machine BlockState Statement where
  onWord s t :=
    match s.step limit t.text with
    | .shift next =>
      match next.single? with
      | some statement => .halt true (.ok statement)
      | none => .shift next
    | .close => .refuse (.statementDue (.word t.text)) t
    | .refuse fault => .refuse fault t
  onEnd s place := .error ⟨(s.endFault? limit).getD (.statementDue .endOfInput), place⟩

def block (limit : Option Nat) (q : TokenQueue) : Run BlockState Statement :=
  (blockMachine limit).run .start q

def statement (limit : Option Nat) (q : TokenQueue) : Run BlockState Statement :=
  (statementMachine limit).run .start q

/-- Parse an IF, with ELSE or without; the queue has to begin with one. -/
def ifStatement (limit : Option Nat) (q : TokenQueue) :
    Except Violation (Run BlockState Statement) :=
  if q.front.text = Keyword.if.text then .ok (statement limit q) else .error (.frontKeyword .«if»)

/-- Parse a WHILE; the queue has to begin with one. -/
def whileStatement (limit : Option Nat) (q : TokenQueue) :
    Except Violation (Run BlockState Statement) :=
  if q.front.text = Keyword.while.text then .ok (statement limit q)
  else .error (.frontKeyword .«while»)

/-- Parse a call; the queue has to begin with an identifier. -/
def callStatement (q : TokenQueue) : Except Violation (Statement × TokenQueue) :=
  if isIdentifier q.front.text then .ok (.call q.front.text, q.dequeue.2)
  else .error .frontIdentifier

theorem ifStatement_eq_ok_iff {limit : Option Nat} {q : TokenQueue}
    {run : Run BlockState Statement} :
    ifStatement limit q = .ok run ↔ q.front.text = Keyword.if.text ∧ statement limit q = run := by
  unfold ifStatement
  split <;> simp [*]

theorem whileStatement_eq_ok_iff {limit : Option Nat} {q : TokenQueue}
    {run : Run BlockState Statement} :
    whileStatement limit q = .ok run ↔
      q.front.text = Keyword.while.text ∧ statement limit q = run := by
  unfold whileStatement
  split <;> simp [*]

theorem callStatement_eq_ok_iff {q left : TokenQueue} {s : Statement} :
    callStatement q = .ok (s, left) ↔
      isIdentifier q.front.text = true ∧ .call q.front.text = s ∧ q.dequeue.2 = left := by
  unfold callStatement
  split <;> simp [*]

def statements (limit : Option Nat) (text : String) : Except ParseError Statement :=
  let run := block limit (tokenize text)
  match run.result with
  | .error e => .error e
  | .ok b =>
    let front := run.rest.front
    if front.isEnd then .ok b else .error ⟨.afterStatements (found front), front.span⟩

end RobotLang.Parser
