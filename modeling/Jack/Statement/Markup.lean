import Jack.Statement.Basic
import Jack.Expression.Markup

/-!
Parse trees of statements.
-/

namespace Jack.Statement

open Element

def conditionMarkup (condition : Expression) : List Element :=
  [symbol .leftParen, condition.markup, symbol .rightParen]

mutual

def markup : Statement → Element
  | .let target none value =>
    Construct.letStatement.element
      [keyword .let, identifier target, symbol .equals, value.markup, symbol .semicolon]
  | .let target (some index) value =>
    Construct.letStatement.element
      [keyword .let, identifier target, symbol .leftBracket, index.markup,
        symbol .rightBracket, symbol .equals, value.markup, symbol .semicolon]
  | .if condition thenBody none =>
    Construct.ifStatement.element
      (keyword .if :: (conditionMarkup condition ++
        [symbol .leftBrace, Construct.statements.element (listChildren thenBody),
          symbol .rightBrace]))
  | .if condition thenBody (some elseBody) =>
    Construct.ifStatement.element
      (keyword .if :: (conditionMarkup condition ++
        [symbol .leftBrace, Construct.statements.element (listChildren thenBody),
          symbol .rightBrace, keyword .else, symbol .leftBrace,
          Construct.statements.element (listChildren elseBody), symbol .rightBrace]))
  | .while condition body =>
    Construct.whileStatement.element
      (keyword .while :: (conditionMarkup condition ++
        [symbol .leftBrace, Construct.statements.element (listChildren body),
          symbol .rightBrace]))
  | .do target =>
    Construct.doStatement.element (keyword .do :: (target.children ++ [symbol .semicolon]))
  | .return none => Construct.returnStatement.element [keyword .return, symbol .semicolon]
  | .return (some value) =>
    Construct.returnStatement.element [keyword .return, value.markup, symbol .semicolon]

def listChildren : List Statement → List Element
  | [] => []
  | first :: others => first.markup :: listChildren others

end

def listMarkup (statements : List Statement) : Element :=
  Construct.statements.element (listChildren statements)

end Jack.Statement
