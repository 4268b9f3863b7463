import Jack.Statement.Basic
import Jack.Expression.Grammar

/-!
The grammar of statements. A keyword predicts each of them.

    letStatement    = 'let' name ('[' expression ']')? '=' expression ';'
    ifStatement     = 'if' condition block ('else' block)?
    whileStatement  = 'while' condition block
    doStatement     = 'do' call ';'
    returnStatement = 'return' expression? ';'
    condition       = '(' expression ')'
    block           = '{' statement* '}'
-/

namespace Jack.Statement

open Reading

def begins : List Token → Bool
  | .keyword .let :: _ | .keyword .if :: _ | .keyword .while :: _ | .keyword .do :: _
  | .keyword .return :: _ => true
  | _ => false

/-- A list of statements may be empty, so the brace that closes it begins it too. -/
def listBegins (ts : List Token) : Bool := begins ts || startsWithSymbol .rightBrace ts

def readIndex : (ts : List Token) → Reading (Option Expression) (ts.length + 1)
  | .symbol .leftBracket :: rest => do
    let index ← Expression.read rest
    let closing ← symbol .rightBracket .letStatement index.rest
    return (index.after (closing.build (some index.value))).widen.widen
  | ts => done none ts

def readLet (ts : List Token) : Reading Statement ts.length := do
  let opening ← keyword .let .letStatement ts
  let target ← identifier .letStatement "variable name" opening.rest
  let index ← readIndex target.rest
  let equals ← symbol .equals .letStatement index.rest
  let value ← Expression.read equals.rest
  let closing ← symbol .semicolon .letStatement value.rest
  return opening.after <| target.afterAny <| index.after <| equals.after <| value.after <|
    closing.build (.let target.value index.value value.value)

def readDo (ts : List Token) : Reading Statement ts.length := do
  let opening ← keyword .do .doStatement ts
  let target ← Call.read .doStatement opening.rest
  let closing ← symbol .semicolon .doStatement target.rest
  return opening.after (target.after (closing.build (.do target.value)))

def readValue (ts : List Token) : Reading (Option Expression) (ts.length + 1) :=
  if Expression.begins ts then do
    let value ← Expression.read ts
    return (value.build (some value.value)).widen
  else
    done none ts

def readReturn (ts : List Token) : Reading Statement ts.length := do
  let opening ← keyword .return .returnStatement ts
  let value ← readValue opening.rest
  let closing ← symbol .semicolon .returnStatement value.rest
  return opening.afterAny (value.after (closing.build (.return value.value)))

def readCondition (construct : Construct) (ts : List Token) : Reading Expression ts.length := do
  let opening ← symbol .leftParen construct ts
  let condition ← Expression.read opening.rest
  let closing ← symbol .rightParen construct condition.rest
  return opening.after (condition.after (closing.build condition.value))

mutual

def read : (ts : List Token) → Reading Statement ts.length
  | .keyword .let :: rest => readLet (.keyword .let :: rest)
  | .keyword .if :: rest => readIf (.keyword .if :: rest)
  | .keyword .while :: rest => readWhile (.keyword .while :: rest)
  | .keyword .do :: rest => readDo (.keyword .do :: rest)
  | .keyword .return :: rest => readReturn (.keyword .return :: rest)
  | ts => unexpected .statements "a statement" ts
termination_by ts => 4 * ts.length + 1
decreasing_by all_goals grind

def readIf (ts : List Token) : Reading Statement ts.length := do
  let opening ← keyword .if .ifStatement ts
  let condition ← readCondition .ifStatement opening.rest
  let thenBody ← readBlock .ifStatement condition.rest
  let elseBody ← readElse thenBody.rest
  return opening.after <| condition.after <| thenBody.afterAny <|
    elseBody.build (.if condition.value thenBody.value elseBody.value)
termination_by 4 * ts.length
decreasing_by all_goals grind

def readElse : (ts : List Token) → Reading (Option (List Statement)) (ts.length + 1)
  | .keyword .else :: rest => do
    let body ← readBlock .ifStatement rest
    return (body.build (some body.value)).widen.widen
  | ts => done none ts
termination_by ts => 4 * ts.length
decreasing_by all_goals grind

def readWhile (ts : List Token) : Reading Statement ts.length := do
  let opening ← keyword .while .whileStatement ts
  let condition ← readCondition .whileStatement opening.rest
  let body ← readBlock .whileStatement condition.rest
  return opening.after (condition.after (body.build (.while condition.value body.value)))
termination_by 4 * ts.length
decreasing_by all_goals grind

def readBlock (construct : Construct) (ts : List Token) :
    Reading (List Statement) ts.length := do
  let opening ← symbol .leftBrace construct ts
  let body ← readList opening.rest
  let closing ← symbol .rightBrace construct body.rest
  return opening.afterAny (body.after (closing.build body.value))
termination_by 4 * ts.length
decreasing_by all_goals grind

def readList (ts : List Token) : Reading (List Statement) (ts.length + 1) :=
  if begins ts then do
    let first ← read ts
    let others ← readList first.rest
    return (first.afterAny (others.build (first.value :: others.value))).widen
  else
    done [] ts
termination_by 4 * ts.length + 2
decreasing_by all_goals grind

end

end Jack.Statement
