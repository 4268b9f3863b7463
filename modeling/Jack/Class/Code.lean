import Jack.Class.Basic
import Jack.Statement.Code

/-!
Code of a class: the code of its subroutines, one after the other. All variables of a
subroutine are declared before its first statement is compiled, because the first instruction
of a subroutine says how many local variables it has.
-/

namespace Jack

open Code

def ClassVariableKind.variableKind : ClassVariableKind → VariableKind
  | static => .static
  | field => .field

namespace Subroutine

/-- Parameters, then local variables, in the order of the text. -/
def declarations (s : Subroutine) : List Declaration :=
  (s.parameters.map fun p => ⟨p.name, p.type.text, .argument⟩) ++
    s.body.locals.flatMap fun d => d.names.map fun name => ⟨name, d.type.text, .local⟩

def scope (outer : Scope) (s : Subroutine) : Except CompileError Scope :=
  (outer.enter (s.kind = .method)).declareAll s.declarations

/-- A constructor makes the object that it works on and a method gets it as an argument. -/
def prologue (s : Subroutine) (scope : Scope) : Program :=
  .function s!"{scope.className}.{s.name}" (scope.count .local) ::
    match s.kind with
    | .constructor =>
      [.push .constant scope.fieldCount, .call "Memory.alloc" 1, .pop .pointer 0]
    | .method => [.push .argument 0, .pop .pointer 0]
    | .function => []

def labels (s : Subroutine) : LabelCount := Statement.listLabels s.body.statements

def code (outer : Scope) (before : LabelCount) (s : Subroutine) : Code := do
  let scope ← s.scope outer
  emit (s.prologue scope) ++ Statement.listCode scope before s.body.statements

def listCode (outer : Scope) (before : LabelCount) : List Subroutine → Code
  | [] => emit []
  | first :: others => first.code outer before ++ listCode outer (before + first.labels) others

end Subroutine

namespace Class

def declarations (c : Class) : List Declaration :=
  c.varDecs.flatMap fun d =>
    d.names.map fun name => ⟨name, d.type.text, d.kind.variableKind⟩

def scope (c : Class) : Except CompileError Scope :=
  Scope.declareAll ⟨c.name, [], []⟩ c.declarations

def code (c : Class) : Code := do
  let scope ← c.scope
  Subroutine.listCode scope 0 c.subroutines

end Class

end Jack
