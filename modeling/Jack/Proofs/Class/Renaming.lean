import Mathlib.Logic.Equiv.Basic
import Jack.Proofs.Class.Shape
import Jack.Proofs.Statement.Renaming

/-! Renaming of the variables of a class. The code of a class does not tell what its variables are
called: with other names for all of them, each name for one variable as before, a class has the same
code. What is visible in the code keeps its name: the class itself, types, subroutines, and the
classes among the receivers of calls. -/

namespace Jack

open Code

variable {r : String → String}

namespace Scope

theorem declare_rename (hr : r.Injective) (scope : Scope) (d : Declaration) :
    (scope.rename r).declare (d.rename r) = renamed r (rename r) (scope.declare d) := by
  -- the new name is taken exactly if the old one was
  have hfind : (scope.rename r).frame.find (d.rename r).name =
      (scope.frame.find d.name).map (Variable.rename r) := Frame.find_rename hr _ _
  unfold declare
  rw [hfind]
  cases scope.frame.find d.name with
  | some v => rfl
  | none =>
    have hadd : (scope.rename r).frame.add (d.rename r) = (scope.frame.add d).rename r :=
      Frame.add_rename _ d
    simp only [Option.map_none, hadd]
    rfl

theorem declareAll_rename (hr : r.Injective) (scope : Scope) (ds : List Declaration) :
    (scope.rename r).declareAll (ds.map (Declaration.rename r)) =
      renamed r (rename r) (scope.declareAll ds) := by
  induction ds generalizing scope with
  | nil => rfl
  | cons d ds ih =>
    rw [List.map_cons, declareAll_cons, declareAll_cons, declare_rename hr]
    exact renamed_bind ih _

/-- The receiver of a method is called `this` before and after. -/
theorem enter_rename (hthis : r "this" = "this") (scope : Scope) (method : Bool) :
    (scope.rename r).enter method = (scope.enter method).rename r := by
  have hreceiver : (receiver scope.className).rename r = receiver scope.className := by
    rw [Declaration.rename, receiver, hthis]
  cases method with
  | false => rfl
  | true =>
    show (⟨scope.className, Frame.add [] (receiver scope.className), _⟩ : Scope) = _
    rw [← hreceiver]
    rfl

theorem fieldCount_rename (scope : Scope) : (scope.rename r).fieldCount = scope.fieldCount := by
  unfold fieldCount rename
  rw [List.getLast?_map]
  cases scope.outer.getLast? <;> exact Frame.count_rename _ _

end Scope

def ClassVariables.rename (r : String → String) (d : ClassVariables) : ClassVariables :=
  { d with names := d.names.map r }

def Parameter.rename (r : String → String) (p : Parameter) : Parameter :=
  { p with name := r p.name }

def Locals.rename (r : String → String) (d : Locals) : Locals := { d with names := d.names.map r }

namespace Subroutine

def rename (r : String → String) (s : Subroutine) : Subroutine :=
  { s with
    parameters := s.parameters.map (Parameter.rename r)
    body := ⟨s.body.locals.map (Locals.rename r), Statement.listRename r s.body.statements⟩ }

theorem declarations_rename (s : Subroutine) :
    (s.rename r).declarations = s.declarations.map (Declaration.rename r) := by
  simp [declarations, rename, List.map_flatMap, List.flatMap_map, Function.comp_def,
    Declaration.rename, Parameter.rename, Locals.rename]

theorem labels_rename (s : Subroutine) : (s.rename r).labels = s.labels :=
  Statement.listLabels_listRename _

theorem scope_rename (hr : r.Injective) (hthis : r "this" = "this") (outer : Scope)
    (s : Subroutine) :
    (s.rename r).scope (outer.rename r) = renamed r (Scope.rename r) (s.scope outer) := by
  rw [scope, declarations_rename, Scope.enter_rename hthis, Scope.declareAll_rename hr]
  rfl

theorem prologue_rename (s : Subroutine) (scope : Scope) :
    (s.rename r).prologue (scope.rename r) = s.prologue scope := by
  have hlocals : (scope.rename r).count .local = scope.count .local := Frame.count_rename _ _
  unfold prologue
  rw [hlocals, Scope.fieldCount_rename]
  rfl

theorem code_rename (hr : r.Injective) (hthis : r "this" = "this") {outer : Scope}
    (s : Subroutine) (before : LabelCount)
    (keeps : ∀ scope, s.scope outer = .ok scope →
      scope.KeepsClasses r (Statement.listCalls s.body.statements)) :
    (s.rename r).code (outer.rename r) before = (s.code outer before).rename r := by
  unfold code
  rw [scope_rename hr hthis]
  cases hscope : s.scope outer with
  | error e => rfl
  | ok scope =>
    show emit ((s.rename r).prologue (scope.rename r)) ++
      Statement.listCode (scope.rename r) before (Statement.listRename r s.body.statements) =
      Code.rename r (emit (s.prologue scope) ++ Statement.listCode scope before s.body.statements)
    rw [prologue_rename, Statement.listCode_rename hr _ before (keeps scope hscope), append_rename]
    rfl

theorem listCode_rename (hr : r.Injective) (hthis : r "this" = "this") {outer : Scope}
    (subs : List Subroutine) (before : LabelCount)
    (keeps : ∀ s ∈ subs, ∀ scope, s.scope outer = .ok scope →
      scope.KeepsClasses r (Statement.listCalls s.body.statements)) :
    listCode (outer.rename r) before (subs.map (rename r)) =
      (listCode outer before subs).rename r := by
  induction subs generalizing before with
  | nil => rfl
  | cons first others ih =>
    rw [List.forall_mem_cons] at keeps
    rw [List.map_cons, listCode, listCode, code_rename hr hthis first before keeps.1,
      labels_rename, ih _ keeps.2, append_rename]

end Subroutine

namespace Class

def rename (r : String → String) (c : Class) : Class :=
  { c with
    varDecs := c.varDecs.map (ClassVariables.rename r)
    subroutines := c.subroutines.map (Subroutine.rename r) }

theorem declarations_rename (c : Class) :
    (c.rename r).declarations = c.declarations.map (Declaration.rename r) := by
  simp [declarations, rename, List.map_flatMap, List.flatMap_map, Function.comp_def,
    Declaration.rename, ClassVariables.rename]

theorem scope_rename (hr : r.Injective) (c : Class) :
    (c.rename r).scope = renamed r (Scope.rename r) c.scope := by
  rw [scope, declarations_rename, scope, ← Scope.declareAll_rename hr]
  rfl

/-- The receivers in a class that are classes keep their names. -/
def KeepsClasses (r : String → String) (c : Class) : Prop :=
  ∀ s ∈ c.subroutines, ∀ scope, c.scope >>= s.scope = .ok scope →
    scope.KeepsClasses r (Statement.listCalls s.body.statements)

/-- Compiling a renamed class gives the same code, or the same error about the new name. -/
theorem code_rename (hr : r.Injective) (hthis : r "this" = "this") {c : Class}
    (keeps : c.KeepsClasses r) : (c.rename r).code = c.code.rename r := by
  unfold code
  rw [scope_rename hr]
  cases hscope : c.scope with
  | error e => rfl
  | ok outer =>
    refine Subroutine.listCode_rename hr hthis c.subroutines 0 fun s hs scope h => ?_
    refine keeps s hs scope ?_
    rw [hscope]
    exact h

/-- The names of variables do not matter: permuted, they give the same code, if `this` and the
classes that calls name stay what they are. -/
theorem code_of_renamed {c : Class} {p : Program} (compiled : c.code = .ok p)
    (r : Equiv.Perm String) (hthis : r "this" = "this") (keeps : c.KeepsClasses r) :
    (c.rename r).code = .ok p := by
  rw [code_rename r.injective hthis keeps, compiled]
  rfl

end Class

/-- A parameter hides a static variable and is the receiver of a call, as a class is of another. -/
def pairing : Class where
  name := "Pair"
  varDecs := [⟨.field, .object "Pair", ["other"]⟩, ⟨.static, .int, ["n"]⟩]
  subroutines := [{
    kind := .method
    returnType := some .int
    name := "meet"
    parameters := [⟨.object "Pair", "n"⟩]
    body := {
      locals := [⟨.int, ["i"]⟩]
      statements := [
        .let "i" none (.term (.call (.mk (some "n") "meet" [.term (.variable "other")]))),
        .do (.mk (some "Output") "printInt" [.term (.variable "i")]),
        .return (some (.term (.variable "i")))] } }]

def pairingCode : Program := [
  .function "Pair.meet" 1, .push .argument 0, .pop .pointer 0,
  .push .argument 1, .push .this 0, .call "Pair.meet" 2, .pop .local 0,
  .push .local 0, .call "Output.printInt" 1, .pop .temp 0,
  .push .local 0, .return]

/-- With the two names exchanged the parameter hides the field. -/
theorem code_of_renamed_pairing :
    pairing.code = .ok pairingCode ∧ Equiv.swap "n" "other" "this" = "this" ∧
      pairing.KeepsClasses (Equiv.swap "n" "other") ∧
      (pairing.rename (Equiv.swap "n" "other")).code = .ok pairingCode := by
  have compiled : pairing.code = .ok pairingCode := rfl
  have hthis : Equiv.swap "n" "other" "this" = "this" := by decide
  have keeps : pairing.KeepsClasses (Equiv.swap "n" "other") := by
    intro s hs scope hscope receiver name arguments hcall hnone
    rw [List.mem_singleton.mp hs] at hscope hcall
    cases hscope
    have hcalls : Call.mk (some receiver) name arguments ∈
        [.mk (some "n") "meet" [.term (.variable "other")],
          .mk (some "Output") "printInt" [.term (.variable "i")]] := hcall
    simp only [List.mem_cons, List.not_mem_nil, or_false, Call.mk.injEq,
      Option.some.injEq] at hcalls
    rcases hcalls with ⟨rfl, -, -⟩ | ⟨rfl, -, -⟩
    · cases hnone
    · decide
  exact ⟨compiled, hthis, keeps, Class.code_of_renamed compiled _ hthis keeps⟩

end Jack
