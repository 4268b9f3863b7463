import Jack.Proofs.Statement.Execution
import Jack.Proofs.Class.Shape

/-! Compiling a class fails exactly if a name is declared twice in one scope or used where it is
not declared, and it fails at the first place in the text where that is so. -/

namespace Jack

open Code Occurrence

namespace Statement

mutual

/-- The variables and arrays that a statement names, in the order of the text. -/
def uses : Statement → List String
  | .let target none value => target :: value.uses
  | .let target (some index) value => target :: (index.uses ++ value.uses)
  | .if condition thenBody none => condition.uses ++ listUses thenBody
  | .if condition thenBody (some elseBody) =>
    condition.uses ++ listUses thenBody ++ listUses elseBody
  | .while condition body => condition.uses ++ listUses body
  | .do target => target.uses
  | .return none => []
  | .return (some value) => value.uses

def listUses : List Statement → List String
  | [] => []
  | first :: others => first.uses ++ listUses others

end

variable {scope : Scope}

mutual

theorem fault?_code (s : Statement) (before : LabelCount) :
    fault? (s.code scope before) = firstFault (ofUses scope.known s.uses) := by
  cases s with
  | «let» target index value =>
    cases index with
    | none =>
      refine Scope.fault?_resolve_bind fun v => ?_
      rw [fault?_append, value.fault?_code]
      exact Option.or_none
    | some index =>
      refine Scope.fault?_resolve_bind fun v => ?_
      rw [← ofUses, ofUses_append, firstFault_append]
      simp only [fault?_append, fault?_emit, index.fault?_code, value.fault?_code,
        Option.none_or, Option.or_none]
  | «if» condition thenBody elseBody =>
    cases elseBody with
    | none =>
      simp only [code, uses, ofUses_append, firstFault_append, fault?_append, fault?_emit,
        condition.fault?_code, fault?_listCode thenBody, Option.or_none]
    | some body =>
      simp only [code, uses, ofUses_append, firstFault_append, fault?_append, fault?_emit,
        condition.fault?_code, fault?_listCode thenBody, fault?_listCode body, Option.or_none]
  | «while» condition body =>
    simp only [code, uses, ofUses_append, firstFault_append, fault?_append, fault?_emit,
      condition.fault?_code, fault?_listCode body, Option.none_or, Option.or_none]
  | «do» target =>
    rw [code, uses, fault?_append, target.fault?_code]
    exact Option.or_none
  | «return» value =>
    cases value with
    | none => rfl
    | some value =>
      rw [code, uses, fault?_append, value.fault?_code]
      exact Option.or_none

theorem fault?_listCode (ss : List Statement) (before : LabelCount) :
    fault? (listCode scope before ss) = firstFault (ofUses scope.known (listUses ss)) := by
  cases ss with
  | nil => rfl
  | cons first others =>
    rw [listCode, listUses, ofUses_append, firstFault_append, fault?_append, fault?_code first,
      fault?_listCode others]

end

end Statement

namespace Subroutine

/-- The names of a subroutine, in the order of the text, when those of the class are `fields`. -/
def occurrences (fields : List String) (s : Subroutine) : List Occurrence :=
  let receiver := if s.kind = .method then ["this"] else []
  let names := s.parameters.map (·.name) ++ s.body.locals.flatMap (·.names)
  ofDeclarations receiver names ++
    ofUses (receiver ++ names ++ fields) (Statement.listUses s.body.statements)

variable {outer : Scope}

theorem map_name_declarations (s : Subroutine) :
    s.declarations.map (·.name) =
      s.parameters.map (·.name) ++ s.body.locals.flatMap (·.names) := by
  simp [declarations, List.map_flatMap, Function.comp_def]

theorem fault?_code (s : Subroutine) (before : LabelCount) (houter : outer.outer = []) :
    fault? (s.code outer before) = firstFault (s.occurrences outer.names) := by
  have hdeclare : fault? (s.scope outer) = firstFault (ofDeclarations
      (if s.kind = .method then ["this"] else [])
      (s.parameters.map (·.name) ++ s.body.locals.flatMap (·.names))) := by
    rw [scope, Scope.fault?_declareAll, Scope.names_enter, map_name_declarations]
    simp
  rw [occurrences, firstFault_append, ← hdeclare, code]
  cases hscope : s.scope outer with
  | error e => rfl
  | ok scope =>
    obtain ⟨-, houter', hnames⟩ := Scope.of_declareAll hscope
    simp only [Scope.names_enter, map_name_declarations, decide_eq_true_eq] at hnames
    have hknown : scope.known = scope.names ++ outer.names := by
      simp [Scope.known, Scope.names, houter', Scope.enter, houter]
    show fault? (emit (s.prologue scope) ++ Statement.listCode scope before s.body.statements) = _
    rw [fault?_append, fault?_emit, Statement.fault?_listCode, hknown, hnames]
    rfl

theorem fault?_listCode (subs : List Subroutine) (before : LabelCount) (houter : outer.outer = []) :
    fault? (listCode outer before subs) =
      firstFault (subs.flatMap (occurrences outer.names)) := by
  induction subs generalizing before with
  | nil => rfl
  | cons first others ih =>
    rw [listCode, List.flatMap_cons, firstFault_append, fault?_append, first.fault?_code _ houter,
      ih]

end Subroutine

namespace Class

/-- The names of a class, in the order of the text. -/
def occurrences (c : Class) : List Occurrence :=
  let fields := c.varDecs.flatMap (·.names)
  ofDeclarations [] fields ++ c.subroutines.flatMap (Subroutine.occurrences fields)

theorem fault?_code (c : Class) : fault? c.code = firstFault c.occurrences := by
  have hfields : c.declarations.map (·.name) = c.varDecs.flatMap (·.names) := by
    simp [Class.declarations, List.map_flatMap, Function.comp_def]
  have hdeclare : fault? c.scope =
      firstFault (ofDeclarations [] (c.varDecs.flatMap (·.names))) := by
    rw [scope, Scope.fault?_declareAll, hfields]
    rfl
  rw [occurrences, firstFault_append, ← hdeclare, code]
  cases hscope : c.scope with
  | error e => rfl
  | ok outer =>
    obtain ⟨-, houter, hnames⟩ := Scope.of_declareAll hscope
    have hnames' : outer.names = c.varDecs.flatMap (·.names) := by
      rw [hnames, hfields]
      rfl
    rw [← hnames']
    exact Subroutine.fault?_listCode _ _ houter

/-- A class is compiled if no name in it offends, and otherwise the first one that does is
reported. -/
theorem code_fails_at_first_offence (c : Class) :
    ((∃ p, c.code = .ok p) ↔ ∀ o ∈ c.occurrences, ¬ o.Offends) ∧
    ∀ error, c.code = .error error ↔
      ∃ before o after, c.occurrences = before ++ o :: after ∧
        (∀ earlier ∈ before, ¬ earlier.Offends) ∧ o.Offends ∧ o.error = error := by
  constructor
  · rw [← fault?_eq_none_iff, fault?_code, firstFault_eq_none_iff]
  · intro error
    rw [← fault?_eq_some_iff, fault?_code, firstFault_eq_some_iff]

/-- The first name that is not declared is used as an index in an `else`. -/
example : code ⟨"Main", [⟨.static, .boolean, ["x"]⟩],
    [⟨.method, none, "go", [⟨.int, "y"⟩], ⟨[], [.if (.term (.variable "x")) []
      (some [.let "y" (some (.term (.variable "z"))) (.term (.variable "w"))])]⟩⟩]⟩ =
    .error (.undefined "z") := rfl

end Class

end Jack
