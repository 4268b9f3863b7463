import Jack.Expression.Basic
import Jack.Grammar.Construct
import Jack.Markup.Element

/-!
Parse trees of expressions. A call is no element of its own: its tokens are children of the
element around it.
-/

namespace Jack

open Element

def Construct.element (c : Construct) (children : List Element) : Element :=
  .node c.name children

namespace Element

def keyword (word : Keyword) : Element := .terminal (.keyword word)

def symbol (s : Symbol) : Element := .terminal (.symbol s)

def identifier (name : String) : Element := .terminal (.identifier name)

end Element

mutual

def Expression.children : Expression → List Element
  | .term value => [value.markup]
  | .binary left op right => left.children ++ [symbol op.symbol, right.markup]

def Term.markup : Term → Element
  | .integer value => Construct.term.element [.terminal (.integer value)]
  | .string text => Construct.term.element [.terminal (.string text)]
  | .constant value => Construct.term.element [keyword value.keyword]
  | .variable name => Construct.term.element [identifier name]
  | .element array index =>
    Construct.term.element [identifier array, symbol .leftBracket,
      Construct.expression.element index.children, symbol .rightBracket]
  | .parenthesized inner =>
    Construct.term.element [symbol .leftParen, Construct.expression.element inner.children,
      symbol .rightParen]
  | .unary op operand => Construct.term.element [symbol op.symbol, operand.markup]
  | .call target => Construct.term.element target.children

def Call.children : Call → List Element
  | .mk receiver name arguments =>
    (match receiver with
      | none => []
      | some receiver => [identifier receiver, symbol .dot]) ++
    [identifier name, symbol .leftParen,
      Construct.expressionList.element (Expression.listChildren arguments), symbol .rightParen]

def Expression.listChildren : List Expression → List Element
  | [] => []
  | first :: others =>
    Construct.expression.element first.children :: Expression.afterCommas others

def Expression.afterCommas : List Expression → List Element
  | [] => []
  | first :: others =>
    symbol .comma :: Construct.expression.element first.children ::
      Expression.afterCommas others

end

def Expression.markup (e : Expression) : Element := Construct.expression.element e.children

end Jack
