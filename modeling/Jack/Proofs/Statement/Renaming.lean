import Jack.Proofs.Statement.Calls

/-! Renaming of variables. A scope and a text in which the variables have other names give the same
code, if different names stay different. The receiver of a call is renamed like a variable whether
it is one or not, so the name of a class in its place must stay what it is, for it goes into the
code. -/

namespace Jack

open Code

variable {r : String → String}

def Declaration.rename (r : String → String) (d : Declaration) : Declaration :=
  { d with name := r d.name }

def Variable.rename (r : String → String) (v : Variable) : Variable := { v with name := r v.name }

def Frame.rename (r : String → String) (frame : Frame) : Frame := frame.map (Variable.rename r)

def Scope.rename (r : String → String) (scope : Scope) : Scope where
  className := scope.className
  frame := scope.frame.rename r
  outer := scope.outer.map (Frame.rename r)

/-- An error about a name is about its new name. -/
def CompileError.rename (r : String → String) : CompileError → CompileError
  | undefined name => .undefined (r name)
  | duplicate name => .duplicate (r name)
  | lexical error => .lexical error
  | grammatical line construct expected found => .grammatical line construct expected found

/-- A result after renaming: `change` tells what becomes of the value, and an error is about the new
name. -/
def renamed {α β : Type} (r : String → String) (change : α → β) (result : Except CompileError α) :
    Except CompileError β :=
  (result.map change).mapError (CompileError.rename r)

theorem renamed_bind {α β γ δ : Type} {change : α → β} {change' : γ → δ}
    {f : α → Except CompileError γ} {g : β → Except CompileError δ}
    (h : ∀ a, g (change a) = renamed r change' (f a)) (result : Except CompileError α) :
    (renamed r change result >>= g) = renamed r change' (result >>= f) := by
  cases result with
  | error e => rfl
  | ok a => exact h a

mutual

def Expression.rename (r : String → String) : Expression → Expression
  | .term value => .term (value.rename r)
  | .binary left op right => .binary (left.rename r) op (right.rename r)

def Term.rename (r : String → String) : Term → Term
  | .integer value => .integer value
  | .string text => .string text
  | .constant value => .constant value
  | .variable name => .variable (r name)
  | .element array index => .element (r array) (index.rename r)
  | .parenthesized inner => .parenthesized (inner.rename r)
  | .unary op operand => .unary op (operand.rename r)
  | .call target => .call (target.rename r)

def Call.rename (r : String → String) : Call → Call
  | .mk receiver name arguments =>
    .mk (receiver.map r) name (Expression.listRename r arguments)

def Expression.listRename (r : String → String) : List Expression → List Expression
  | [] => []
  | first :: others => first.rename r :: Expression.listRename r others

end

theorem Expression.length_listRename (es : List Expression) :
    (Expression.listRename r es).length = es.length := by
  induction es with
  | nil => rfl
  | cons first others ih => rw [Expression.listRename, List.length_cons, List.length_cons, ih]

namespace Frame

theorem find_rename (hr : r.Injective) (frame : Frame) (name : String) :
    (frame.rename r).find (r name) = (frame.find name).map (Variable.rename r) := by
  have hname : (fun v : Variable => (v.rename r).name == r name) = (·.name == name) := by
    funext v
    exact Bool.eq_iff_iff.mpr (by simp [Variable.rename, hr.eq_iff])
  rw [find, rename, List.find?_map, Function.comp_def, hname]
  rfl

theorem count_rename (frame : Frame) (kind : VariableKind) :
    (frame.rename r).count kind = frame.count kind := by
  rw [count, rename, List.countP_map]
  rfl

theorem add_rename (frame : Frame) (d : Declaration) :
    (frame.rename r).add (d.rename r) = (frame.add d).rename r := by
  rw [add, add, rename, rename, List.map_append, ← rename, count_rename]
  rfl

end Frame

namespace Scope

variable {scope : Scope}

theorem lookup_rename (hr : r.Injective) (scope : Scope) (name : String) :
    (scope.rename r).lookup (r name) = (scope.lookup name).map (Variable.rename r) := by
  unfold lookup rename
  rw [← List.map_cons (f := Frame.rename r), List.findSome?_map, List.map_findSome?]
  simp only [Function.comp_def, Frame.find_rename hr]

theorem resolve_rename (hr : r.Injective) (scope : Scope) (name : String) :
    (scope.rename r).resolve (r name) = renamed r (Variable.rename r) (scope.resolve name) := by
  unfold resolve
  rw [lookup_rename hr]
  cases scope.lookup name <;> rfl

/-- The receivers among these calls that are no variables, and so classes, keep their names. -/
def KeepsClasses (scope : Scope) (r : String → String) (calls : List Call) : Prop :=
  ∀ receiver name arguments, .mk (some receiver) name arguments ∈ calls →
    scope.lookup receiver = none → r receiver = receiver

@[simp] theorem keepsClasses_append {calls others : List Call} :
    scope.KeepsClasses r (calls ++ others) ↔
      scope.KeepsClasses r calls ∧ scope.KeepsClasses r others := by
  simp only [KeepsClasses, List.mem_append, or_imp, forall_and]

theorem keepsClasses_cons {receiver : Option String} {name : String} {arguments : List Expression}
    {calls : List Call} :
    scope.KeepsClasses r (.mk receiver name arguments :: calls) ↔
      (∀ object ∈ receiver, scope.lookup object = none → r object = object) ∧
        scope.KeepsClasses r calls := by
  simp only [KeepsClasses, List.mem_cons, Call.mk.injEq, or_imp, forall_and]
  refine and_congr_left fun _ => ⟨fun h object hobject => ?_, fun h object _ _ hcall => ?_⟩
  · exact h object name arguments ⟨hobject.symm, rfl, rfl⟩
  · exact h object hcall.1.symm

/-- The renamed receiver of a call is the same object or the same class. -/
theorem dispatch_rename (hr : r.Injective) {receiver : Option String}
    (h : ∀ object ∈ receiver, scope.lookup object = none → r object = object) :
    (scope.rename r).dispatch (receiver.map r) = scope.dispatch receiver := by
  cases receiver with
  | none => rfl
  | some object =>
    unfold dispatch
    simp only [Option.map_some, lookup_rename hr]
    cases hv : scope.lookup object with
    | none =>
      -- the name of the class is in the code
      rw [h object rfl hv]
      rfl
    | some v => rfl

end Scope

/-- The same code, or the error about the new name. -/
abbrev Code.rename (r : String → String) (code : Code) : Code := renamed r id code

theorem Code.append_rename (first second : Code) :
    (first ++ second).rename r = first.rename r ++ second.rename r := by
  cases first <;> cases second <;> rfl

theorem Scope.resolve_bind_rename (hr : r.Injective) (scope : Scope) (name : String)
    {f g : Variable → Code} (h : ∀ v, g (v.rename r) = (f v).rename r) :
    ((scope.rename r).resolve (r name) >>= g) = Code.rename r (scope.resolve name >>= f) := by
  rw [resolve_rename hr]
  exact renamed_bind h _

variable {scope : Scope}

mutual

theorem Expression.code_rename (hr : r.Injective) (e : Expression)
    (keeps : scope.KeepsClasses r e.calls) :
    (e.rename r).code (scope.rename r) = (e.code scope).rename r := by
  cases e with
  | term value => exact Term.code_rename hr value keeps
  | binary left op right =>
    rw [Expression.calls, Scope.keepsClasses_append] at keeps
    rw [Expression.rename, Expression.code, Expression.code_rename hr left keeps.1,
      Term.code_rename hr right keeps.2, Expression.code, append_rename, append_rename]
    rfl

theorem Term.code_rename (hr : r.Injective) (t : Term) (keeps : scope.KeepsClasses r t.calls) :
    (t.rename r).code (scope.rename r) = (t.code scope).rename r := by
  cases t with
  | integer value => rfl
  | string text => rfl
  | constant value => rfl
  | «variable» name => exact Scope.resolve_bind_rename hr scope name fun v => rfl
  | element array index =>
    refine Scope.resolve_bind_rename hr scope array fun v => ?_
    rw [Expression.code_rename hr index keeps, append_rename, append_rename]
    rfl
  | parenthesized inner => exact Expression.code_rename hr inner keeps
  | unary op operand =>
    rw [Term.rename, Term.code, Term.code_rename hr operand keeps, Term.code, append_rename]
    rfl
  | call target => exact Call.code_rename hr target keeps

theorem Call.code_rename (hr : r.Injective) (c : Call) (keeps : scope.KeepsClasses r c.calls) :
    (c.rename r).code (scope.rename r) = (c.code scope).rename r := by
  obtain ⟨receiver, name, arguments⟩ := c
  rw [Call.calls, Scope.keepsClasses_cons] at keeps
  rw [Call.rename, Call.code, Scope.dispatch_rename hr keeps.1, Expression.length_listRename,
    Expression.listCode_rename hr arguments keeps.2, Call.code, append_rename, append_rename]
  rfl

theorem Expression.listCode_rename (hr : r.Injective) (es : List Expression)
    (keeps : scope.KeepsClasses r (Expression.listCalls es)) :
    Expression.listCode (scope.rename r) (Expression.listRename r es) =
      (Expression.listCode scope es).rename r := by
  cases es with
  | nil => rfl
  | cons first others =>
    rw [Expression.listCalls, Scope.keepsClasses_append] at keeps
    rw [Expression.listRename, Expression.listCode, Expression.code_rename hr first keeps.1,
      Expression.listCode_rename hr others keeps.2, Expression.listCode, append_rename]

end

namespace Statement

mutual

def rename (r : String → String) : Statement → Statement
  | .let target index value =>
    .let (r target) (index.map (Expression.rename r)) (value.rename r)
  | .if condition thenBody none => .if (condition.rename r) (listRename r thenBody) none
  | .if condition thenBody (some elseBody) =>
    .if (condition.rename r) (listRename r thenBody) (some (listRename r elseBody))
  | .while condition body => .while (condition.rename r) (listRename r body)
  | .do target => .do (target.rename r)
  | .return value => .return (value.map (Expression.rename r))

def listRename (r : String → String) : List Statement → List Statement
  | [] => []
  | first :: others => first.rename r :: listRename r others

end

mutual

theorem labels_rename (s : Statement) : (s.rename r).labels = s.labels := by
  cases s with
  | «let» | «do» | «return» => rfl
  | «if» condition thenBody elseBody =>
    cases elseBody with
    | none => rw [rename, labels, labels, listLabels_listRename thenBody]
    | some body =>
      rw [rename, labels, labels, listLabels_listRename thenBody, listLabels_listRename body]
  | «while» condition body => rw [rename, labels, labels, listLabels_listRename body]

theorem listLabels_listRename (ss : List Statement) :
    listLabels (listRename r ss) = listLabels ss := by
  cases ss with
  | nil => rfl
  | cons first others =>
    rw [listRename, listLabels, listLabels, labels_rename first, listLabels_listRename others]

end

mutual

theorem code_rename (hr : r.Injective) (s : Statement) (before : LabelCount)
    (keeps : scope.KeepsClasses r s.calls) :
    (s.rename r).code (scope.rename r) before = (s.code scope before).rename r := by
  cases s with
  | «let» target index value =>
    cases index with
    | none =>
      refine Scope.resolve_bind_rename hr scope target fun v => ?_
      rw [Expression.code_rename hr value keeps, append_rename]
      rfl
    | some index =>
      rw [calls, Scope.keepsClasses_append] at keeps
      refine Scope.resolve_bind_rename hr scope target fun v => ?_
      rw [Expression.code_rename hr index keeps.1, Expression.code_rename hr value keeps.2]
      simp only [append_rename]
      rfl
  | «if» condition thenBody elseBody =>
    cases elseBody with
    | none =>
      rw [calls, Scope.keepsClasses_append] at keeps
      simp only [rename, code, append_rename, Expression.code_rename hr condition keeps.1,
        listCode_rename hr thenBody _ keeps.2]
      rfl
    | some body =>
      rw [calls, Scope.keepsClasses_append, Scope.keepsClasses_append] at keeps
      simp only [rename, code, append_rename, Expression.code_rename hr condition keeps.1.1,
        listCode_rename hr thenBody _ keeps.1.2, listCode_rename hr body _ keeps.2,
        listLabels_listRename]
      rfl
  | «while» condition body =>
    rw [calls, Scope.keepsClasses_append] at keeps
    simp only [rename, code, append_rename, Expression.code_rename hr condition keeps.1,
      listCode_rename hr body _ keeps.2]
    rfl
  | «do» target =>
    rw [rename, code, code, Call.code_rename hr target keeps, append_rename]
    rfl
  | «return» value =>
    cases value with
    | none => rfl
    | some value =>
      rw [code, append_rename, ← Expression.code_rename hr value keeps]
      rfl

theorem listCode_rename (hr : r.Injective) (ss : List Statement) (before : LabelCount)
    (keeps : scope.KeepsClasses r (listCalls ss)) :
    listCode (scope.rename r) before (listRename r ss) = (listCode scope before ss).rename r := by
  cases ss with
  | nil => rfl
  | cons first others =>
    rw [listCalls, Scope.keepsClasses_append] at keeps
    rw [listRename, listCode, listCode, code_rename hr first _ keeps.1, labels_rename,
      listCode_rename hr others _ keeps.2, append_rename]

end

end Statement

end Jack
