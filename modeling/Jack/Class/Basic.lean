import Jack.Statement.Basic

/-!
Declarations, up to the class that a source file holds.
-/

namespace Jack

inductive ValueType
  | int | char | boolean
  | object (className : String)
deriving DecidableEq, Repr

def ValueType.text : ValueType → String
  | int => "int"
  | char => "char"
  | boolean => "boolean"
  | object name => name

/-- The keywords that open a declaration of class variables. -/
inductive ClassVariableKind
  | static | field
deriving DecidableEq, Repr

structure ClassVariables where
  kind : ClassVariableKind
  type : ValueType
  names : List String
deriving DecidableEq, Repr

structure Parameter where
  type : ValueType
  name : String
deriving DecidableEq, Repr

structure Locals where
  type : ValueType
  names : List String
deriving DecidableEq, Repr

structure SubroutineBody where
  locals : List Locals
  statements : List Statement
deriving Repr

inductive SubroutineKind
  | constructor | function | method
deriving DecidableEq, Repr

structure Subroutine where
  kind : SubroutineKind
  /-- A subroutine without a type is declared `void`. -/
  returnType : Option ValueType
  name : String
  parameters : List Parameter
  body : SubroutineBody
deriving Repr

structure Class where
  name : String
  varDecs : List ClassVariables
  subroutines : List Subroutine
deriving Repr

def ClassVariableKind.keyword : ClassVariableKind → Keyword
  | static => .static
  | field => .field

def SubroutineKind.keyword : SubroutineKind → Keyword
  | constructor => .constructor
  | function => .function
  | method => .method

end Jack
