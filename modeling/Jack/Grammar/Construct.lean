/-!
The constructs of the grammar: the productions that have a name of their own, both in the
messages about broken programs and as elements of a rendered parse tree.
-/

namespace Jack

inductive Construct
  | «class» | classVarDec | subroutineDec | subroutineBody | varDec | statements
  | letStatement | ifStatement | whileStatement | doStatement | returnStatement
  | expression | term | expressionList | parameterList
deriving DecidableEq, Repr

namespace Construct

def name : Construct → String
  | .class => "class"
  | classVarDec => "classVarDec"
  | subroutineDec => "subroutineDec"
  | subroutineBody => "subroutineBody"
  | varDec => "varDec"
  | statements => "statements"
  | letStatement => "letStatement"
  | ifStatement => "ifStatement"
  | whileStatement => "whileStatement"
  | doStatement => "doStatement"
  | returnStatement => "returnStatement"
  | expression => "expression"
  | term => "term"
  | expressionList => "expressionList"
  | parameterList => "parameterList"

def all : List Construct :=
  [.class, classVarDec, subroutineDec, subroutineBody, varDec, statements, letStatement,
    ifStatement, whileStatement, doStatement, returnStatement, expression, term,
    expressionList, parameterList]

def ofName? (text : String) : Option Construct :=
  all.find? (·.name == text)

theorem ofName?_name (c : Construct) : ofName? c.name = some c := by
  cases c <;> decide

end Construct

end Jack
