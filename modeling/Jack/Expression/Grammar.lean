import Jack.Expression.Basic
import Jack.Grammar.Reading

/-!
The grammar of expressions. `begins` predicts a rule from the next token, for a call from the
next two, and takes nothing.

    expression     = term (op term)*
    term           = integer | string | constant | name | name '[' expression ']'
                   | '(' expression ')' | unaryOp term | call
    call           = name '(' expressionList ')' | name '.' name '(' expressionList ')'
    expressionList = (expression (',' expression)*)?
-/

namespace Jack

open Reading

namespace Term

def begins : List Token → Bool
  | .integer _ :: _ | .string _ :: _ | .identifier _ :: _ => true
  | .keyword word :: _ => (Constant.ofKeyword? word).isSome
  | .symbol s :: _ => s == .leftParen || (UnaryOp.ofSymbol? s).isSome
  | [] => false

end Term

namespace Expression

def begins (ts : List Token) : Bool := Term.begins ts

def listBegins (ts : List Token) : Bool := begins ts || startsWithSymbol .rightParen ts

end Expression

namespace Call

def begins : List Token → Bool
  | .identifier _ :: .symbol s :: _ => s == .leftParen || s == .dot
  | _ => false

/-- The receiver, if a dot follows the first name, and the name of the subroutine. -/
def readTarget (construct : Construct) :
    (ts : List Token) → Reading (Option String × String) ts.length
  | .identifier receiver :: .symbol .dot :: rest => do
    let name ← identifier construct "subroutine name" rest
    return (name.build (some receiver, name.value)).widen.widen
  | ts => do
    let name ← identifier construct "subroutine, class or variable name" ts
    return name.build (none, name.value)

end Call

mutual

/-- The tokens of a call belong to the construct around it, which failures name. -/
def Call.read (construct : Construct) (ts : List Token) : Reading Call ts.length := do
  let target ← Call.readTarget construct ts
  let opening ← symbol .leftParen construct target.rest
  let arguments ← Expression.readList opening.rest
  let closing ← symbol .rightParen construct arguments.rest
  return target.after <| opening.afterAny <| arguments.after <|
    closing.build ⟨target.value.1, target.value.2, arguments.value⟩
termination_by 4 * ts.length
decreasing_by all_goals grind

def Term.read : (ts : List Token) → Reading Term ts.length
  | .integer value :: rest => done (.integer value) rest
  | .string text :: rest => done (.string text) rest
  | .keyword word :: rest =>
    match Constant.ofKeyword? word with
    | some value => done (.constant value) rest
    | none => unexpected .term "a term" (.keyword word :: rest)
  | .symbol .leftParen :: rest => do
    let inner ← Expression.read rest
    let closing ← symbol .rightParen .term inner.rest
    return (inner.after (closing.build (.parenthesized inner.value))).widen
  | .symbol s :: rest =>
    match UnaryOp.ofSymbol? s with
    | some op => do
      let operand ← Term.read rest
      return (operand.build (.unary op operand.value)).widen
    | none => unexpected .term "a term" (.symbol s :: rest)
  | .identifier array :: .symbol .leftBracket :: rest => do
    let index ← Expression.read rest
    let closing ← symbol .rightBracket .term index.rest
    return (index.after (closing.build (.element array index.value))).widen.widen
  | .identifier name :: rest =>
    if Call.begins (.identifier name :: rest) then do
      let target ← Call.read .term (.identifier name :: rest)
      return target.build (.call target.value)
    else
      done (.variable name) rest
  | [] => unexpected .term "a term" []
termination_by ts => 4 * ts.length + 1
decreasing_by all_goals grind

def Expression.read (ts : List Token) : Reading Expression ts.length := do
  let first ← Term.read ts
  let whole ← Expression.readMore (.term first.value) first.rest
  return first.afterAny whole
termination_by 4 * ts.length + 2
decreasing_by all_goals grind

/-- The operators and terms that continue the expression `left`. -/
def Expression.readMore (left : Expression) :
    (ts : List Token) → Reading Expression (ts.length + 1)
  | .symbol s :: rest =>
    match BinaryOp.ofSymbol? s with
    | some op => do
      let right ← Term.read rest
      let whole ← Expression.readMore (.binary left op right.value) right.rest
      return (right.afterAny whole).widen.widen
    | none => done left (.symbol s :: rest)
  | ts => done left ts
termination_by ts => 4 * ts.length
decreasing_by all_goals grind

def Expression.readList (ts : List Token) : Reading (List Expression) (ts.length + 1) :=
  if Expression.begins ts then do
    let first ← Expression.read ts
    let others ← Expression.readAfterCommas first.rest
    return (first.afterAny (others.build (first.value :: others.value))).widen
  else
    done [] ts
termination_by 4 * ts.length + 3
decreasing_by all_goals grind

def Expression.readAfterCommas : (ts : List Token) → Reading (List Expression) (ts.length + 1)
  | .symbol .comma :: rest => do
    let first ← Expression.read rest
    let others ← Expression.readAfterCommas first.rest
    return (first.afterAny (others.build (first.value :: others.value))).widen.widen
  | ts => done [] ts
termination_by ts => 4 * ts.length
decreasing_by all_goals grind

end

end Jack
