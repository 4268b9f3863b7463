import Jack.Error
import Jack.Grammar.Reading

/-!
A position in a list of located tokens. Rules read tokens without their lines; a cursor runs
a rule on the tokens in front of it, moves past those that the rule took, and puts the line
of its new position on a failure.
-/

namespace Jack

structure Cursor where
  remaining : List Located
  /-- The line of the last token taken, 1 if there was none. -/
  lastLine : Nat := 1
deriving DecidableEq, Repr

namespace Cursor

def tokens (c : Cursor) : List Token := c.remaining.map (·.token)

/-- The token `n` places after the next one. -/
def peek (c : Cursor) (n : Nat) : Option Token := c.remaining[n]?.map (·.token)

/-- The line of the next token, or of the last token taken if none is left. -/
def line (c : Cursor) : Nat :=
  match c.remaining with
  | next :: _ => next.line
  | [] => c.lastLine

def advance (c : Cursor) : Cursor :=
  match c.remaining with
  | next :: rest => ⟨rest, next.line⟩
  | [] => c

/-- The position at which `left` tokens remain. -/
def moveTo (left : Nat) (c : Cursor) : Cursor :=
  let taken := c.remaining.length - left
  ⟨c.remaining.drop taken, ((c.remaining.take taken).getLast?.map (·.line)).getD c.lastLine⟩

def run {α : Type} {bound : List Token → Nat}
    (rule : (ts : List Token) → Reading α (bound ts)) (c : Cursor) :
    Except CompileError α × Cursor :=
  match rule c.tokens with
  | .ok parsed => (.ok parsed.value, c.moveTo parsed.rest.length)
  | .error failure =>
    let stopped := c.moveTo failure.rest.length
    (.error (.grammatical stopped.line failure.construct failure.expected (stopped.peek 0)),
      stopped)

end Cursor

end Jack
