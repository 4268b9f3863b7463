import Jack.Token.Basic

/-!
Expressions. Operators have no precedence and associate to the left, so an expression is a
term or a smaller expression, an operator and a term. The terms with parts of their own are
array elements, expressions in parentheses, unary operations and calls.
-/

namespace Jack

inductive UnaryOp
  | negate | complement
deriving DecidableEq, Repr

inductive BinaryOp
  | add | subtract | multiply | divide | and | or | less | greater | equal
deriving DecidableEq, Repr

/-- The values that have a keyword for a name. -/
inductive Constant
  | «true» | «false» | null | this
deriving DecidableEq, Repr

namespace UnaryOp

def symbol : UnaryOp → Symbol
  | negate => .minus
  | complement => .tilde

def ofSymbol? (s : Symbol) : Option UnaryOp :=
  [negate, complement].find? (·.symbol == s)

theorem ofSymbol?_symbol (op : UnaryOp) : ofSymbol? op.symbol = some op := by
  cases op <;> decide

theorem symbol_of_ofSymbol? {s : Symbol} {op : UnaryOp} (h : ofSymbol? s = some op) :
    op.symbol = s := by
  simpa using List.find?_some h

end UnaryOp

namespace BinaryOp

def symbol : BinaryOp → Symbol
  | add => .plus
  | subtract => .minus
  | multiply => .asterisk
  | divide => .slash
  | and => .ampersand
  | or => .pipe
  | less => .lessThan
  | greater => .greaterThan
  | equal => .equals

def ofSymbol? (s : Symbol) : Option BinaryOp :=
  [add, subtract, multiply, divide, and, or, less, greater, equal].find? (·.symbol == s)

theorem ofSymbol?_symbol (op : BinaryOp) : ofSymbol? op.symbol = some op := by
  cases op <;> decide

theorem symbol_of_ofSymbol? {s : Symbol} {op : BinaryOp} (h : ofSymbol? s = some op) :
    op.symbol = s := by
  simpa using List.find?_some h

end BinaryOp

namespace Constant

def keyword : Constant → Keyword
  | .true => .true
  | .false => .false
  | null => .null
  | this => .this

def ofKeyword? (word : Keyword) : Option Constant :=
  [.true, .false, null, this].find? (·.keyword == word)

theorem ofKeyword?_keyword (c : Constant) : ofKeyword? c.keyword = some c := by
  cases c <;> decide

theorem keyword_of_ofKeyword? {word : Keyword} {c : Constant} (h : ofKeyword? word = some c) :
    c.keyword = word := by
  simpa using List.find?_some h

end Constant

mutual

inductive Expression
  | term (value : Term)
  | binary (left : Expression) (op : BinaryOp) (right : Term)

inductive Term
  | integer (value : UInt32)
  | string (text : String)
  | constant (value : Constant)
  | variable (name : String)
  | element (array : String) (index : Expression)
  | parenthesized (inner : Expression)
  | unary (op : UnaryOp) (operand : Term)
  | call (target : Call)

/-- A receiver is a variable or a class; which of the two is decided by the scope. -/
inductive Call
  | mk (receiver : Option String) (name : String) (arguments : List Expression)

end

deriving instance Repr for Expression, Term, Call

end Jack
