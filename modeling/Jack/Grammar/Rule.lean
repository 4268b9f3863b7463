import Jack.Class.Grammar
import Jack.Grammar.Cursor

/-!
The rules of the grammar as one family: each can be asked whether the next tokens predict it,
and each can be run alone. A `Node` is what a rule builds.
-/

namespace Jack

/-- The constructs, and three rules that share them: any one statement, a call inside a
construct, and a whole file. -/
inductive Rule
  | construct (c : Construct)
  | statement
  | call (within : Construct)
  | file
deriving DecidableEq, Repr

inductive Node
  | «class» (value : Class)
  | classVariables (value : ClassVariables)
  | subroutine (value : Subroutine)
  | body (value : SubroutineBody)
  | locals (value : Locals)
  | parameters (value : List Parameter)
  | statements (value : List Statement)
  | statement (value : Statement)
  | expression (value : Expression)
  | term (value : Term)
  | expressions (value : List Expression)
  | call (value : Call)
deriving Repr

namespace Rule

def begins : Rule → List Token → Bool
  | .construct .class | .file => Class.begins
  | .construct .classVarDec => ClassVariables.begins
  | .construct .subroutineDec => Subroutine.begins
  | .construct .subroutineBody => SubroutineBody.begins
  | .construct .varDec => Locals.begins
  | .construct .statements => Statement.listBegins
  | .construct .letStatement => startsWithKeyword .let
  | .construct .ifStatement => startsWithKeyword .if
  | .construct .whileStatement => startsWithKeyword .while
  | .construct .doStatement => startsWithKeyword .do
  | .construct .returnStatement => startsWithKeyword .return
  | .construct .expression => Expression.begins
  | .construct .term => Term.begins
  | .construct .expressionList => Expression.listBegins
  | .construct .parameterList => Parameter.listBegins
  | .statement => Statement.begins
  | .call _ => Call.begins

/-- The node of a construct that takes at least one token. -/
def taking {α : Type} {n : Nat} (node : α → Node) (reading : Reading α n) :
    Reading Node (n + 1) :=
  reading.map fun parsed => (parsed.build (node parsed.value)).widen

/-- The node of a construct that may be empty. -/
def spanning {α : Type} {n : Nat} (node : α → Node) (reading : Reading α n) : Reading Node n :=
  reading.map fun parsed => parsed.build (node parsed.value)

def read (rule : Rule) (ts : List Token) : Reading Node (ts.length + 1) :=
  match rule with
  | .construct .class => taking .class (Class.read ts)
  | .construct .classVarDec => taking .classVariables (ClassVariables.read ts)
  | .construct .subroutineDec => taking .subroutine (Subroutine.read ts)
  | .construct .subroutineBody => taking .body (SubroutineBody.read ts)
  | .construct .varDec => taking .locals (Locals.read ts)
  | .construct .statements => spanning .statements (Statement.readList ts)
  | .construct .letStatement => taking .statement (Statement.readLet ts)
  | .construct .ifStatement => taking .statement (Statement.readIf ts)
  | .construct .whileStatement => taking .statement (Statement.readWhile ts)
  | .construct .doStatement => taking .statement (Statement.readDo ts)
  | .construct .returnStatement => taking .statement (Statement.readReturn ts)
  | .construct .expression => taking .expression (Expression.read ts)
  | .construct .term => taking .term (Term.read ts)
  | .construct .expressionList => spanning .expressions (Expression.readList ts)
  | .construct .parameterList => spanning .parameters (Parameter.readList ts)
  | .statement => taking .statement (Statement.read ts)
  | .call within => taking .call (Call.read within ts)
  | .file => taking .class (Class.readFile ts)

end Rule

end Jack
