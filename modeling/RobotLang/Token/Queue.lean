import RobotLang.Token

/-!
Token queues. A queue is read from the front, one token of lookahead at a time, and always closes with
a token for the end of the input, so there is always a front. An end token may also stand earlier in a
queue; it is never taken, so nothing behind the first one is ever reached.

Main statements: a token that is taken was the front (`toList_dequeue`), and the first end token stays
(`dequeue_of_atEnd`).
-/

namespace RobotLang

/-- The tokens still to be read, the closing end token apart, and where that one stands. -/
structure TokenQueue where
  tokens : List Token
  endSpan : Option Span
deriving Repr, DecidableEq

namespace TokenQueue

def closing (q : TokenQueue) : Token := ⟨endOfInput, q.endSpan⟩

def toList (q : TokenQueue) : List Token := q.tokens ++ [q.closing]

def texts (q : TokenQueue) : List String := q.toList.map (·.text)

/-- The queue of the given words, which stand at no place. -/
def ofTexts (words : List String) : TokenQueue := ⟨words.map (⟨·, none⟩), none⟩

def empty : TokenQueue := ofTexts []

def front (q : TokenQueue) : Token := q.tokens.headD q.closing

def atEnd (q : TokenQueue) : Bool := q.front.isEnd

def length (q : TokenQueue) : Nat := q.tokens.length + 1

/-- Take the front; an end token is shown and stays. -/
def dequeue (q : TokenQueue) : String × TokenQueue :=
  if q.atEnd then (endOfInput, q) else (q.front.text, ⟨q.tokens.tail, q.endSpan⟩)

def dequeueMany : Nat → TokenQueue → List String × TokenQueue
  | 0, q => ([], q)
  | n + 1, q =>
    let (word, rest) := q.dequeue
    let (words, rest) := dequeueMany n rest
    (word :: words, rest)

theorem dequeue_of_atEnd {q : TokenQueue} (h : q.atEnd = true) : q.dequeue = (endOfInput, q) := by
  simp [dequeue, h]

theorem toList_dequeue {q : TokenQueue} (h : q.atEnd = false) :
    q.toList = q.front :: q.dequeue.2.toList := by
  rcases q with ⟨_ | ⟨t, ts⟩, place⟩
  · simp [atEnd, front, closing, Token.isEnd] at h
  · simp [dequeue, h, toList, front, closing]

theorem texts_ofTexts (words : List String) : (ofTexts words).texts = words ++ [endOfInput] := by
  simp [texts, toList, ofTexts, closing, Function.comp_def]

end TokenQueue

end RobotLang
