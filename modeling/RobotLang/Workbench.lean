import RobotLang.Fingerprint
import RobotLang.Interchange.Tree
import RobotLang.Workbench.Registers

/-!
A workbench for statements and programs: a token queue to parse from, and registers that hold
statements and programs. Commands work on them one at a time.

A statement that a command puts into another one is moved: its register is emptied first, in the order
in which the command names them, so that no statement is in two places. Results are written after that,
the ones that a command takes out of a statement last. A command whose demands are not met changes
nothing. A parser that refuses its input keeps what it has taken from the queue.
-/

namespace RobotLang

structure Workbench where
  queue : TokenQueue
  statements : Registers Statement
  programs : Registers Program

/-- What can be done on a workbench. Registers are given by their names; `target` is the one that is
worked on. -/
inductive Workbench.Command where
  | tokenize (text : String)
  | queueWords (words : List String)
  | dequeue (count : Nat)
  | showQueue
  | parseStatement (target : String)
  | parseBlock (target : String)
  | parseIf (target : String)
  | parseWhile (target : String)
  | parseCall (target : String)
  | parseInstruction (target : String)
  | parseProgram (target : String)
  | readStatements (target text : String)
  | readProgram (target text : String)
  | copy (target source : String)
  | copyChild (target source : String) (path : List Nat)
  | inspect (target : String)
  | assemble (target : String) (label : Label) (children : List String)
  | disassemble (target children : String)
  | transfer (target source : String)
  | clear (target : String)
  | blockLength (target : String)
  | insert (target : String) (position : Nat) (source : String)
  | remove (target : String) (position : Nat) (removed : String)
  | assembleIf (target : String) (condition : Condition) (block : String)
  | assembleIfElse (target : String) (condition : Condition) (yes no : String)
  | assembleWhile (target : String) (condition : Condition) (block : String)
  | assembleCall (target instruction : String)
  | disassembleIf (target block : String)
  | disassembleIfElse (target yes no : String)
  | disassembleWhile (target block : String)
  | disassembleCall (target : String)
  | accepts (label : Label) (below : List Kind)
  | same (left right : String)
  | print (target : String) (indent : Nat)
  | newProgram (target : String)
  | showProgram (target : String)
  | sameProgram (left right : String)
  | setName (target name : String)
  /-- Each instruction is given with the register of its body. -/
  | replaceContext (target : String) (bodies : List (String × String))
  | replaceBody (target body : String)
  | instruction (target name : String)
  | copyBody (target program : String)

inductive Workbench.Reply where
  | done
  | words (words : List String)
  | tokens (tokens : List Token)
  | statement (s : Statement)
  | parts (label : Label) (count : Nat)
  | count (n : Nat)
  | flag (b : Bool)
  | condition (c : Condition)
  | text (text : String)
  | program (p : Program)
  | context (context : Context)
  | body (body : Option Statement)

namespace Workbench

def empty : Workbench := ⟨.empty, .empty, .empty⟩

/-- The statement in a register; at first, the empty block. -/
def statement (w : Workbench) (name : String) : Statement := w.statements.get .empty name

/-- The program in a register; at first, the unnamed one. -/
def program (w : Workbench) (name : String) : Program := w.programs.get .unnamed name

def setStatement (w : Workbench) (name : String) (s : Statement) : Workbench :=
  { w with statements := w.statements.set name s }

def setProgram (w : Workbench) (name : String) (p : Program) : Workbench :=
  { w with programs := w.programs.set name p }

def setStatements (w : Workbench) (writes : List (String × Statement)) : Workbench :=
  writes.foldl (fun w write => w.setStatement write.1 write.2) w

/-- Move a statement out of its register, which is left with the empty block. -/
def take (w : Workbench) (name : String) : Statement × Workbench :=
  (w.statement name, w.setStatement name .empty)

/-- Move statements out of their registers, one after the other. -/
def takeAll (w : Workbench) : List String → List Statement × Workbench
  | [] => ([], w)
  | name :: names =>
    let (s, w) := w.take name
    let (ss, w) := takeAll w names
    (s :: ss, w)

/-- What a command comes to: an answer, or the error of a parser, and the workbench after it. -/
abbrev Result := Except ParseError Reply × Workbench

def ok (reply : Reply) (w : Workbench) : Except Violation Result := .ok (.ok reply, w)

/-- Read a statement with a parser; the register changes only if the parser accepts. -/
def parseInto {σ : Type} (w : Workbench) (target : String) (run : Parser.Run σ Statement) : Result :=
  let w := { w with queue := run.rest }
  match run.result with
  | .ok s => (.ok .done, w.setStatement target s)
  | .error e => (.error e, w)

/-- Read a program from the queue; the register changes only if the parser accepts. -/
def parseProgramInto (w : Workbench) (target : String) : Result :=
  let run := Parser.program (some Parser.nestingLimit) w.queue
  let w := { w with queue := run.rest }
  match run.result with
  | .ok p => (.ok .done, w.setProgram target p)
  | .error e => (.error e, w)

/-- Read a declaration from the queue; the register gets its body as soon as that has been read. -/
def parseInstructionInto (w : Workbench) (target : String) : Except Violation Result := do
  let limit := some Parser.nestingLimit
  let run ← Parser.declaration limit w.queue
  let w := { w with queue := run.rest }
  let w := match Parser.readBody? limit run with
    | some body => w.setStatement target body
    | none => w
  return (run.result.map fun declared => .text declared.1, w)

def apply (w : Workbench) (command : Command) : Except Violation Result :=
  let limit := some Parser.nestingLimit
  match command with
  | .tokenize text => ok .done { w with queue := RobotLang.tokenize text }
  | .queueWords words => ok .done { w with queue := .ofTexts words }
  | .dequeue count =>
    let (words, queue) := w.queue.dequeueMany count
    ok (.words words) { w with queue }
  | .showQueue => ok (.tokens w.queue.toList) w
  | .parseStatement target => .ok (w.parseInto target (Parser.statement limit w.queue))
  | .parseBlock target => .ok (w.parseInto target (Parser.block limit w.queue))
  | .parseIf target => do return w.parseInto target (← Parser.ifStatement limit w.queue)
  | .parseWhile target => do return w.parseInto target (← Parser.whileStatement limit w.queue)
  | .parseCall target => do
    let (s, queue) ← Parser.callStatement w.queue
    ok .done ({ w with queue }.setStatement target s)
  | .parseInstruction target => w.parseInstructionInto target
  | .parseProgram target => .ok (w.parseProgramInto target)
  | .readStatements target text =>
    match Statement.parse text with
    | .ok s => ok .done (w.setStatement target s)
    | .error e => .ok (.error e, w)
  | .readProgram target text =>
    match Program.parse text with
    | .ok p => ok .done (w.setProgram target p)
    | .error e => .ok (.error e, w)
  | .copy target source => ok .done (w.setStatement target (w.statement source))
  | .copyChild target source path =>
    match (w.statement source).descendant? path with
    | some s => ok .done (w.setStatement target s)
    | none => ok .done w
  | .inspect target => ok (.statement (w.statement target)) w
  | .assemble target label children => do
    let (children, w) := w.takeAll children
    ok .done (w.setStatement target (← Statement.assemble label children))
  | .disassemble target names =>
    let (s, w) := w.take target
    let (label, children) := s.parts
    let writes := children.zipIdx.map fun (child, i) => (s!"{names}{i}", child)
    ok (.parts label children.length) (w.setStatements writes)
  | .transfer target source =>
    let (s, w) := w.take source
    ok .done (w.setStatement target s)
  | .clear target => ok .done (w.setStatement target .empty)
  | .blockLength target => do ok (.count (← (w.statement target).blockLength)) w
  | .insert target position source => do
    let (s, w) := w.take source
    ok .done (w.setStatement target (← (w.statement target).insert position s))
  | .remove target position removed => do
    let (s, block) ← (w.statement target).remove position
    ok .done (w.setStatements [(target, block), (removed, s)])
  | .assembleIf target condition block => do
    let (block, w) := w.take block
    ok .done (w.setStatement target (← Statement.assembleIf condition block))
  | .assembleIfElse target condition yes no => do
    let (yes, w) := w.take yes
    let (no, w) := w.take no
    ok .done (w.setStatement target (← Statement.assembleIfElse condition yes no))
  | .assembleWhile target condition block => do
    let (block, w) := w.take block
    ok .done (w.setStatement target (← Statement.assembleWhile condition block))
  | .assembleCall target instruction => do
    ok .done (w.setStatement target (← Statement.assembleCall instruction))
  | .disassembleIf target block => do
    let (condition, s) ← (w.statement target).partsOfIf
    ok (.condition condition) (w.setStatements [(target, .empty), (block, s)])
  | .disassembleIfElse target yes no => do
    let (condition, s, t) ← (w.statement target).partsOfIfElse
    ok (.condition condition) (w.setStatements [(target, .empty), (yes, s), (no, t)])
  | .disassembleWhile target block => do
    let (condition, s) ← (w.statement target).partsOfWhile
    ok (.condition condition) (w.setStatements [(target, .empty), (block, s)])
  | .disassembleCall target => do
    let instruction ← (w.statement target).partsOfCall
    ok (.text instruction) (w.setStatement target .empty)
  | .accepts label below => ok (.flag (label.accepts below)) w
  | .same left right => ok (.flag (w.statement left = w.statement right)) w
  | .print target indent => ok (.text ((w.statement target).text indent)) w
  | .newProgram target => ok .done (w.setProgram target .unnamed)
  | .showProgram target => ok (.program (w.program target)) w
  | .sameProgram left right => ok (.flag (w.program left = w.program right)) w
  | .setName target name => do
    ok .done (w.setProgram target (← (w.program target).setName name))
  | .replaceContext target bodies => do
    let bodies := bodies.mergeSort fun a b => a.1 ≤ b.1
    let (statements, w) := w.takeAll (bodies.map (·.2))
    let context := Context.ofEntries ((bodies.map (·.1)).zip statements)
    let (old, p) ← (w.program target).replaceContext context
    ok (.context old) (w.setProgram target p)
  | .replaceBody target body => do
    let (body, w) := w.take body
    let (old, p) ← (w.program target).replaceBody body
    ok (.statement old) (w.setProgram target p)
  | .instruction target name => ok (.body ((w.program target).instruction? name)) w
  | .copyBody target program => ok .done (w.setStatement target (w.program program).body)

/-- The workbench after a command; one whose demands are not met changes nothing. -/
def after (w : Workbench) (command : Command) : Workbench :=
  match w.apply command with
  | .ok (_, next) => next
  | .error _ => w

def run (w : Workbench) (commands : List Command) : Workbench := commands.foldl after w

/-! ## What has changed -/

/-- The statement registers that hold something else than before. -/
def changedStatements (before after : Workbench) : List (String × Statement) :=
  after.statements.names.filterMap fun name =>
    if after.statement name = before.statement name then none else some (name, after.statement name)

/-- The program registers that hold something else than before. -/
def changedPrograms (before after : Workbench) : List (String × Program) :=
  after.programs.names.filterMap fun name =>
    if after.program name = before.program name then none else some (name, after.program name)

end Workbench

/-- Whether a program is read back from its canonical text. -/
def Program.readsBack (p : Program) : Bool :=
  match Program.parse p.text with
  | .ok q => q = p
  | .error _ => false

end RobotLang
