import Jack.Class.Basic
import Jack.Statement.Grammar

/-!
The grammar of declarations.

    class          = 'class' name '{' classVarDec* subroutineDec* '}'
    classVarDec    = ('static' | 'field') type names
    subroutineDec  = ('constructor' | 'function' | 'method') ('void' | type) name
                     '(' parameterList ')' subroutineBody
    parameterList  = (type name (',' type name)*)?
    subroutineBody = '{' varDec* statement* '}'
    varDec         = 'var' type names
    names          = name (',' name)* ';'
    type           = 'int' | 'char' | 'boolean' | name
-/

namespace Jack

open Reading

namespace ValueType

def begins : List Token → Bool
  | .keyword .int :: _ | .keyword .char :: _ | .keyword .boolean :: _ | .identifier _ :: _ => true
  | _ => false

def read (construct : Construct) : (ts : List Token) → Reading ValueType ts.length
  | .keyword .int :: rest => done int rest
  | .keyword .char :: rest => done char rest
  | .keyword .boolean :: rest => done boolean rest
  | .identifier name :: rest => done (object name) rest
  | ts => unexpected construct "a type" ts

end ValueType

/-- The names of one declaration, and the semicolon that ends it. -/
def readNames (construct : Construct) (ts : List Token) : Reading (List String) ts.length := do
  let names ← separated (identifier construct "variable name") ts
  let closing ← symbol .semicolon construct names.rest
  return names.after (closing.build names.value)

namespace ClassVariables

def begins (ts : List Token) : Bool :=
  startsWithKeyword .static ts || startsWithKeyword .field ts

def readKind : (ts : List Token) → Reading ClassVariableKind ts.length
  | .keyword .static :: rest => done .static rest
  | .keyword .field :: rest => done .field rest
  | ts => unexpected .classVarDec "'static' or 'field'" ts

def read (ts : List Token) : Reading ClassVariables ts.length := do
  let kind ← readKind ts
  let type ← ValueType.read .classVarDec kind.rest
  let names ← readNames .classVarDec type.rest
  return kind.after (type.after (names.build ⟨kind.value, type.value, names.value⟩))

end ClassVariables

namespace Parameter

def listBegins (ts : List Token) : Bool :=
  ValueType.begins ts || startsWithSymbol .rightParen ts

def read (ts : List Token) : Reading Parameter ts.length := do
  let type ← ValueType.read .parameterList ts
  let name ← identifier .parameterList "parameter name" type.rest
  return type.after (name.build ⟨type.value, name.value⟩)

def readList (ts : List Token) : Reading (List Parameter) (ts.length + 1) :=
  if startsWithSymbol .rightParen ts then
    done [] ts
  else do
    let parameters ← separated read ts
    return parameters.widen

end Parameter

namespace Locals

def begins (ts : List Token) : Bool := startsWithKeyword .var ts

def read (ts : List Token) : Reading Locals ts.length := do
  let opening ← keyword .var .varDec ts
  let type ← ValueType.read .varDec opening.rest
  let names ← readNames .varDec type.rest
  return opening.after (type.after (names.build ⟨type.value, names.value⟩))

end Locals

namespace SubroutineBody

def begins (ts : List Token) : Bool := startsWithSymbol .leftBrace ts

def read (ts : List Token) : Reading SubroutineBody ts.length := do
  let opening ← symbol .leftBrace .subroutineBody ts
  let locals ← many Locals.begins Locals.read opening.rest
  let statements ← Statement.readList locals.rest
  let closing ← symbol .rightBrace .subroutineBody statements.rest
  return opening.afterAny <| locals.afterAny <| statements.after <|
    closing.build ⟨locals.value, statements.value⟩

end SubroutineBody

namespace Subroutine

def begins (ts : List Token) : Bool :=
  startsWithKeyword .constructor ts || startsWithKeyword .function ts ||
    startsWithKeyword .method ts

def readKind : (ts : List Token) → Reading SubroutineKind ts.length
  | .keyword .constructor :: rest => done .constructor rest
  | .keyword .function :: rest => done .function rest
  | .keyword .method :: rest => done .method rest
  | ts => unexpected .subroutineDec "'constructor', 'function' or 'method'" ts

def readReturnType : (ts : List Token) → Reading (Option ValueType) ts.length
  | .keyword .void :: rest => done none rest
  | ts => do
    let type ← ValueType.read .subroutineDec ts
    return type.build (some type.value)

def read (ts : List Token) : Reading Subroutine ts.length := do
  let kind ← readKind ts
  let type ← readReturnType kind.rest
  let name ← identifier .subroutineDec "subroutine name" type.rest
  let opening ← symbol .leftParen .subroutineDec name.rest
  let parameters ← Parameter.readList opening.rest
  let closing ← symbol .rightParen .subroutineDec parameters.rest
  let body ← SubroutineBody.read closing.rest
  return kind.after <| type.after <| name.after <| opening.afterAny <| parameters.after <|
    closing.after <|
    body.build ⟨kind.value, type.value, name.value, parameters.value, body.value⟩

end Subroutine

namespace Class

def begins (ts : List Token) : Bool := startsWithKeyword .class ts

def read (ts : List Token) : Reading Class ts.length := do
  let opening ← keyword .class .class ts
  let name ← identifier .class "class name" opening.rest
  let brace ← symbol .leftBrace .class name.rest
  let varDecs ← many ClassVariables.begins ClassVariables.read brace.rest
  let subroutines ← many Subroutine.begins Subroutine.read varDecs.rest
  let closing ← symbol .rightBrace .class subroutines.rest
  return opening.after <| name.after <| brace.afterAny <| varDecs.afterAny <| subroutines.after <|
    closing.build ⟨name.value, varDecs.value, subroutines.value⟩

/-- A source file holds one class and nothing after it. -/
def readFile (ts : List Token) : Reading Class ts.length := do
  let file ← read ts
  if file.rest.isEmpty then .ok file
  else unexpected .class "end of file" file.rest

end Class

end Jack
