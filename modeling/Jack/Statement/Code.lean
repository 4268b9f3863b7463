import Jack.Statement.Basic
import Jack.Expression.Code
import Jack.Vm.Label

/-!
Code of statements. A statement leaves the stack as it found it. The labels of a statement
are numbered from how many conditionals and loops of the class begin before it, so its code
depends on what comes before it through these two numbers alone.
-/

namespace Jack.Statement

open Code

mutual

/-- How many labels a statement and the statements inside it use up. -/
def labels : Statement → LabelCount
  | .let _ _ _ | .do _ | .return _ => 0
  | .if _ thenBody none => ⟨1, 0⟩ + listLabels thenBody
  | .if _ thenBody (some elseBody) => ⟨1, 0⟩ + listLabels thenBody + listLabels elseBody
  | .while _ body => ⟨0, 1⟩ + listLabels body

def listLabels : List Statement → LabelCount
  | [] => 0
  | first :: others => first.labels + listLabels others

end

mutual

/-- `before` counts the conditionals and loops that begin earlier in the class. The address
of an array element waits on the stack while the value is computed, because computing the
value may move the pointer to array elements. -/
def code (scope : Scope) (before : LabelCount) : Statement → Code
  | .let target none value => do
    let v ← scope.resolve target
    value.code scope ++ emit [v.pop]
  | .let target (some index) value => do
    let v ← scope.resolve target
    emit [v.push] ++ index.code scope ++ emit [.arithmetic .add] ++ value.code scope ++
      emit [.pop .temp 0, .pop .pointer 1, .push .temp 0, .pop .that 0]
  | .if condition thenBody elseBody =>
    let onFalse := labelName scope.className .ifFalse before.ifs
    let atEnd := labelName scope.className .ifEnd before.ifs
    let inside := before + ⟨1, 0⟩
    condition.code scope ++ emit [.arithmetic .not, .ifGoto onFalse] ++
      listCode scope inside thenBody ++ emit [.goto atEnd, .label onFalse] ++
      (match elseBody with
        | none => emit []
        | some body => listCode scope (inside + listLabels thenBody) body) ++
      emit [.label atEnd]
  | .while condition body =>
    let start := labelName scope.className .whileStart before.whiles
    let atEnd := labelName scope.className .whileEnd before.whiles
    emit [.label start] ++ condition.code scope ++ emit [.arithmetic .not, .ifGoto atEnd] ++
      listCode scope (before + ⟨0, 1⟩) body ++ emit [.goto start, .label atEnd]
  | .do target => target.code scope ++ emit [.pop .temp 0]
  | .return none => emit [.push .constant 0, .return]
  | .return (some value) => value.code scope ++ emit [.return]

def listCode (scope : Scope) (before : LabelCount) : List Statement → Code
  | [] => emit []
  | first :: others =>
    first.code scope before ++ listCode scope (before + first.labels) others

end

end Jack.Statement
