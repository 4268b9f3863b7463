import Jack.Proofs.Expression.Evaluation
import Jack.Statement.Basic

/-! What statements do, told without code or machine. A statement that ends leaves a store, and
either the next statement follows or the subroutine returns a value; a loop that never ends has
no outcome. -/

namespace Jack

def Variable.write (v : Variable) (s : Store) (w : Word) : Store :=
  match v.kind with
  | .static => { s with memory.statics := Function.update s.memory.statics v.index w }
  | .field => s.writeHeap (s.this + .ofOperand v.index) w
  | .argument => { s with arguments := Function.update s.arguments v.index w }
  | .local => { s with locals := Function.update s.locals v.index w }

inductive Outcome
  | next (s : Store)
  | returned (value : Word) (s : Store)

mutual

/-- A condition holds if it has the value of `true`; no other word will do. -/
inductive Statement.Exec (oracle : Oracle) (scope : Scope) : Statement → Store → Outcome → Prop
  | assign {target : String} {value : Expression} {v : Variable} {s : Store} {w : Word}
      {memory : Memory} (declared : scope.lookup target = some v)
      (evaluated : value.eval oracle scope s = some (w, memory)) :
      Exec oracle scope (.let target none value) s (.next (v.write (s.withMemory memory) w))
  | assignElement {array : String} {index value : Expression} {v : Variable} {s : Store}
      {i w : Word} {between memory : Memory} (declared : scope.lookup array = some v)
      (indexed : index.eval oracle scope s = some (i, between))
      (evaluated : value.eval oracle scope (s.withMemory between) = some (w, memory)) :
      Exec oracle scope (.let array (some index) value) s
        (.next ((s.withMemory memory).writeHeap (v.read s + i) w))
  | ifTrue {condition : Expression} {thenBody : List Statement}
      {elseBody : Option (List Statement)} {s : Store} {memory : Memory} {o : Outcome}
      (holds : condition.eval oracle scope s = some (BitVec.allOnes 16, memory))
      (body : Statement.ListExec oracle scope thenBody (s.withMemory memory) o) :
      Exec oracle scope (.if condition thenBody elseBody) s o
  | ifFalse {condition : Expression} {thenBody : List Statement}
      {elseBody : Option (List Statement)} {s : Store} {w : Word} {memory : Memory} {o : Outcome}
      (evaluated : condition.eval oracle scope s = some (w, memory))
      (fails : w ≠ BitVec.allOnes 16)
      (body : Statement.ListExec oracle scope (elseBody.getD []) (s.withMemory memory) o) :
      Exec oracle scope (.if condition thenBody elseBody) s o
  | whileTrue {condition : Expression} {body : List Statement} {s s' : Store} {memory : Memory}
      {o : Outcome} (holds : condition.eval oracle scope s = some (BitVec.allOnes 16, memory))
      (once : Statement.ListExec oracle scope body (s.withMemory memory) (.next s'))
      (again : Exec oracle scope (.while condition body) s' o) :
      Exec oracle scope (.while condition body) s o
  | whileReturned {condition : Expression} {body : List Statement} {s s' : Store}
      {memory : Memory} {w : Word}
      (holds : condition.eval oracle scope s = some (BitVec.allOnes 16, memory))
      (once : Statement.ListExec oracle scope body (s.withMemory memory) (.returned w s')) :
      Exec oracle scope (.while condition body) s (.returned w s')
  | whileFalse {condition : Expression} {body : List Statement} {s : Store} {w : Word}
      {memory : Memory} (evaluated : condition.eval oracle scope s = some (w, memory))
      (fails : w ≠ BitVec.allOnes 16) :
      Exec oracle scope (.while condition body) s (.next (s.withMemory memory))
  | discard {target : Call} {s : Store} {w : Word} {memory : Memory}
      (evaluated : target.eval oracle scope s = some (w, memory)) :
      Exec oracle scope (.do target) s (.next (s.withMemory memory))
  | returnValue {value : Expression} {s : Store} {w : Word} {memory : Memory}
      (evaluated : value.eval oracle scope s = some (w, memory)) :
      Exec oracle scope (.return (some value)) s (.returned w (s.withMemory memory))
  | returnNothing {s : Store} : Exec oracle scope (.return none) s (.returned 0 s)

inductive Statement.ListExec (oracle : Oracle) (scope : Scope) :
    List Statement → Store → Outcome → Prop
  | nil {s : Store} : ListExec oracle scope [] s (.next s)
  | cons {first : Statement} {others : List Statement} {s s' : Store} {o : Outcome}
      (head : Statement.Exec oracle scope first s (.next s'))
      (tail : ListExec oracle scope others s' o) : ListExec oracle scope (first :: others) s o
  | returned {first : Statement} {others : List Statement} {s s' : Store} {w : Word}
      (head : Statement.Exec oracle scope first s (.returned w s')) :
      ListExec oracle scope (first :: others) s (.returned w s')

end

mutual

def Statement.callsFit : Statement → Bool
  | .let _ none value => value.callsFit
  | .let _ (some index) value => index.callsFit && value.callsFit
  | .if condition thenBody none => condition.callsFit && listCallsFit thenBody
  | .if condition thenBody (some elseBody) =>
    condition.callsFit && listCallsFit thenBody && listCallsFit elseBody
  | .while condition body => condition.callsFit && listCallsFit body
  | .do target => target.callsFit
  | .return none => true
  | .return (some value) => value.callsFit

def Statement.listCallsFit : List Statement → Bool
  | [] => true
  | first :: others => first.callsFit && listCallsFit others

end

namespace Statement

theorem callsFit_if {condition : Expression} {thenBody : List Statement}
    {elseBody : Option (List Statement)} (fits : callsFit (.if condition thenBody elseBody)) :
    condition.callsFit ∧ listCallsFit thenBody ∧ listCallsFit (elseBody.getD []) := by
  cases elseBody <;> simp_all [callsFit, listCallsFit]

theorem callsFit_while {condition : Expression} {body : List Statement}
    (fits : callsFit (.while condition body)) : condition.callsFit ∧ listCallsFit body := by
  simpa only [callsFit, Bool.and_eq_true] using fits

end Statement

end Jack
