import Jack.Token.Basic
import Jack.Grammar.Construct

/-!
How a rule of the grammar reads tokens. A rule takes tokens from the front of a list and
answers with a value and the tokens it left, or stops at the first token that cannot
continue it. What is left is shorter than a bound: the length of what it was given for a
rule that takes a token, one more for a rule that may take none. The bound is what lets
rules call each other, and themselves, on what an earlier rule left.
-/

namespace Jack

/-- The rule `construct` stopped in front of `rest`, where `expected` should have stood. -/
structure Failure where
  construct : Construct
  expected : String
  rest : List Token
deriving DecidableEq, Repr

structure Parsed (α : Type) (bound : Nat) where
  value : α
  rest : List Token
  rest_length_lt : rest.length < bound

grind_pattern Parsed.rest_length_lt => self.rest

abbrev Reading (α : Type) (bound : Nat) := Except Failure (Parsed α bound)

namespace Parsed

variable {α β : Type} {n : Nat}

/-- The same tokens are left, and another value is made of those taken. -/
def build (p : Parsed α n) (value : β) : Parsed β n := ⟨value, p.rest, p.rest_length_lt⟩

/-- What was read from the tokens that `p` left, seen from where `p` began. -/
def after (p : Parsed α n) (q : Parsed β p.rest.length) : Parsed β n :=
  ⟨q.value, q.rest, Nat.lt_trans q.rest_length_lt p.rest_length_lt⟩

/-- The same where no token need have been taken after `p`. -/
def afterAny (p : Parsed α n) (q : Parsed β (p.rest.length + 1)) : Parsed β n :=
  ⟨q.value, q.rest, Nat.lt_of_le_of_lt (Nat.le_of_lt_succ q.rest_length_lt) p.rest_length_lt⟩

/-- The same reading seen from one token earlier, or by a rule that may take none. -/
def widen (p : Parsed α n) : Parsed α (n + 1) :=
  ⟨p.value, p.rest, Nat.lt_succ_of_lt p.rest_length_lt⟩

@[simp] theorem build_value (p : Parsed α n) (value : β) : (p.build value).value = value := rfl

@[simp] theorem build_rest (p : Parsed α n) (value : β) : (p.build value).rest = p.rest := rfl

@[simp] theorem after_value (p : Parsed α n) (q : Parsed β p.rest.length) :
    (p.after q).value = q.value := rfl

@[simp] theorem after_rest (p : Parsed α n) (q : Parsed β p.rest.length) :
    (p.after q).rest = q.rest := rfl

@[simp] theorem afterAny_value (p : Parsed α n) (q : Parsed β (p.rest.length + 1)) :
    (p.afterAny q).value = q.value := rfl

@[simp] theorem afterAny_rest (p : Parsed α n) (q : Parsed β (p.rest.length + 1)) :
    (p.afterAny q).rest = q.rest := rfl

@[simp] theorem widen_value (p : Parsed α n) : p.widen.value = p.value := rfl

@[simp] theorem widen_rest (p : Parsed α n) : p.widen.rest = p.rest := rfl

end Parsed

namespace Reading

variable {α : Type}

/-- Nothing more is taken than the token in front of `rest`, if one was. -/
def done (value : α) (rest : List Token) : Reading α (rest.length + 1) :=
  .ok ⟨value, rest, Nat.lt_succ_self _⟩

def unexpected {bound : Nat} (construct : Construct) (expected : String)
    (ts : List Token) : Reading α bound :=
  .error ⟨construct, expected, ts⟩

def keyword (word : Keyword) (construct : Construct) : (ts : List Token) → Reading Unit ts.length
  | .keyword word' :: rest =>
    if word' = word then done () rest
    else unexpected construct s!"'{word.text}'" (.keyword word' :: rest)
  | ts => unexpected construct s!"'{word.text}'" ts

def symbol (s : Symbol) (construct : Construct) : (ts : List Token) → Reading Unit ts.length
  | .symbol s' :: rest =>
    if s' = s then done () rest
    else unexpected construct s!"'{s.text}'" (.symbol s' :: rest)
  | ts => unexpected construct s!"'{s.text}'" ts

def identifier (construct : Construct) (expected : String) :
    (ts : List Token) → Reading String ts.length
  | .identifier name :: rest => done name rest
  | ts => unexpected construct expected ts

/-- `rule` as often as it is predicted to match. -/
def many (begins : List Token → Bool) (rule : (ts : List Token) → Reading α ts.length)
    (ts : List Token) : Reading (List α) (ts.length + 1) :=
  if begins ts then do
    let first ← rule ts
    let others ← many begins rule first.rest
    return (first.afterAny (others.build (first.value :: others.value))).widen
  else
    done [] ts
termination_by ts.length
decreasing_by grind

/-- `rule` after each of the commas that follow. -/
def afterCommas (rule : (ts : List Token) → Reading α ts.length) :
    (ts : List Token) → Reading (List α) (ts.length + 1)
  | .symbol .comma :: rest => do
    let first ← rule rest
    let others ← afterCommas rule first.rest
    return (first.afterAny (others.build (first.value :: others.value))).widen.widen
  | ts => done [] ts
termination_by ts => ts.length
decreasing_by grind

/-- One or more of `rule`, with commas between them. -/
def separated (rule : (ts : List Token) → Reading α ts.length) (ts : List Token) :
    Reading (List α) ts.length := do
  let first ← rule ts
  let others ← afterCommas rule first.rest
  return first.afterAny (others.build (first.value :: others.value))

end Reading

/-- Whether the next token is the given symbol. -/
def startsWithSymbol (s : Symbol) : List Token → Bool
  | .symbol s' :: _ => s' = s
  | _ => false

def startsWithIdentifier : List Token → Bool
  | .identifier _ :: _ => true
  | _ => false

def startsWithKeyword (word : Keyword) : List Token → Bool
  | .keyword word' :: _ => word' = word
  | _ => false

end Jack
