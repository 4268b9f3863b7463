import Jack.Class.Basic
import Jack.Statement.Markup

/-!
Parse trees of declarations.
-/

namespace Jack

open Element

def ValueType.markup : ValueType → Element
  | int => keyword .int
  | char => keyword .char
  | boolean => keyword .boolean
  | object name => identifier name

/-- Groups of elements, with a comma between one group and the next. -/
def commaSeparated (groups : List (List Element)) : List Element :=
  (groups.intersperse [symbol .comma]).flatten

def namesMarkup (names : List String) : List Element :=
  commaSeparated (names.map fun name => [identifier name])

def ClassVariables.markup (d : ClassVariables) : Element :=
  Construct.classVarDec.element
    ([keyword d.kind.keyword, d.type.markup] ++ namesMarkup d.names ++ [symbol .semicolon])

def Locals.markup (d : Locals) : Element :=
  Construct.varDec.element
    ([keyword .var, d.type.markup] ++ namesMarkup d.names ++ [symbol .semicolon])

def Parameter.listMarkup (parameters : List Parameter) : Element :=
  Construct.parameterList.element
    (commaSeparated (parameters.map fun p => [p.type.markup, identifier p.name]))

def SubroutineBody.markup (body : SubroutineBody) : Element :=
  Construct.subroutineBody.element
    ([symbol .leftBrace] ++ body.locals.map Locals.markup ++
      [Statement.listMarkup body.statements, symbol .rightBrace])

def Subroutine.returnMarkup : Option ValueType → Element
  | none => keyword .void
  | some type => type.markup

def Subroutine.markup (s : Subroutine) : Element :=
  Construct.subroutineDec.element
    [keyword s.kind.keyword, Subroutine.returnMarkup s.returnType, identifier s.name,
      symbol .leftParen, Parameter.listMarkup s.parameters, symbol .rightParen, s.body.markup]

def Class.markup (c : Class) : Element :=
  Construct.class.element
    ([keyword .class, identifier c.name, symbol .leftBrace] ++
      c.varDecs.map ClassVariables.markup ++ c.subroutines.map Subroutine.markup ++
      [symbol .rightBrace])

end Jack
