import Mathlib.Data.List.Basic
import Jack.Scope
import Jack.Vm.Code

/-! Where names stand in a text, and what keeps a text from being compiled: a declaration of a name
that its scope has already, or a use of one that no scope has. Resolving and declaring the names of
a text in their order fails at the first of these. -/

namespace Jack

/-- A name in a text: declared where others are taken already, or used where others are known. -/
inductive Occurrence
  | declared (name : String) (taken : List String)
  | used (name : String) (known : List String)

namespace Occurrence

def Offends : Occurrence → Prop
  | declared name taken => name ∈ taken
  | used name known => name ∉ known

instance : DecidablePred Offends
  | declared name taken => inferInstanceAs (Decidable (name ∈ taken))
  | used name known => inferInstanceAs (Decidable (name ∉ known))

def error : Occurrence → CompileError
  | declared name _ => .duplicate name
  | used name _ => .undefined name

/-- Several declarations in one scope, each after those in front of it. -/
def ofDeclarations (taken : List String) : List String → List Occurrence
  | [] => []
  | name :: names => declared name taken :: ofDeclarations (taken ++ [name]) names

def ofUses (known names : List String) : List Occurrence := names.map (used · known)

@[simp] theorem ofUses_nil (known : List String) : ofUses known [] = [] := rfl

theorem ofUses_append (known before after : List String) :
    ofUses known (before ++ after) = ofUses known before ++ ofUses known after := List.map_append

theorem ofUses_cons (known : List String) (name : String) (names : List String) :
    ofUses known (name :: names) = used name known :: ofUses known names := rfl

/-- What is wrong with the first occurrence that offends. -/
def firstFault (os : List Occurrence) : Option CompileError :=
  (os.find? (·.Offends)).map error

theorem firstFault_append (before after : List Occurrence) :
    firstFault (before ++ after) = (firstFault before).or (firstFault after) := by
  rw [firstFault, List.find?_append, Option.map_or]
  rfl

theorem firstFault_cons_of_offends {o : Occurrence} (h : o.Offends) (os : List Occurrence) :
    firstFault (o :: os) = some o.error := by
  simp [firstFault, h]

theorem firstFault_cons_of_not_offends {o : Occurrence} (h : ¬ o.Offends)
    (os : List Occurrence) : firstFault (o :: os) = firstFault os := by
  simp [firstFault, h]

theorem firstFault_eq_none_iff {os : List Occurrence} :
    firstFault os = none ↔ ∀ o ∈ os, ¬ o.Offends := by
  simp [firstFault]

theorem firstFault_eq_some_iff {os : List Occurrence} {e : CompileError} :
    firstFault os = some e ↔ ∃ before o after, os = before ++ o :: after ∧
      (∀ earlier ∈ before, ¬ earlier.Offends) ∧ o.Offends ∧ o.error = e := by
  simp only [firstFault, Option.map_eq_some_iff, List.find?_eq_some_iff_append,
    decide_eq_true_eq, Bool.not_eq_eq_eq_not, Bool.not_true, decide_eq_false_iff_not]
  constructor
  · rintro ⟨o, ⟨hoffends, before, after, hos, hbefore⟩, herror⟩
    exact ⟨before, o, after, hos, hbefore, hoffends, herror⟩
  · rintro ⟨before, o, after, hos, hbefore, hoffends, herror⟩
    exact ⟨o, ⟨hoffends, before, after, hos, hbefore⟩, herror⟩

end Occurrence

open Occurrence

/-! The fault of a computation. -/

def fault? {α : Type} : Except CompileError α → Option CompileError
  | .ok _ => none
  | .error e => some e

theorem fault?_eq_none_iff {α : Type} {x : Except CompileError α} :
    fault? x = none ↔ ∃ a, x = .ok a := by
  cases x <;> simp [fault?]

theorem fault?_eq_some_iff {α : Type} {x : Except CompileError α} {e : CompileError} :
    fault? x = some e ↔ x = .error e := by
  cases x <;> simp [fault?]

theorem Code.fault?_emit (p : Program) : fault? (emit p) = none := rfl

theorem Code.fault?_append (first second : Code) :
    fault? (first ++ second) = (fault? first).or (fault? second) := by
  cases first <;> cases second <;> rfl

namespace Scope

variable {scope scope' : Scope}

/-- The names declared in the scope itself. -/
def names (scope : Scope) : List String := scope.frame.map (·.name)

/-- The names declared in the scope and in those around it. -/
def known (scope : Scope) : List String :=
  (scope.frame :: scope.outer).flatMap fun frame => frame.map (·.name)

theorem names_enter (outer : Scope) (method : Bool) :
    (outer.enter method).names = if method then ["this"] else [] := by
  cases method <;> rfl

theorem lookup_eq_none_iff {name : String} : scope.lookup name = none ↔ name ∉ scope.known := by
  unfold lookup known
  rw [List.findSome?_eq_none_iff]
  simp [Frame.find_eq_none_iff]

theorem fault?_resolve_bind {name : String} {f : Variable → Code} {os : List Occurrence}
    (hf : ∀ v, fault? (f v) = firstFault os) :
    fault? (scope.resolve name >>= f) = firstFault (used name scope.known :: os) := by
  unfold resolve
  cases hv : scope.lookup name with
  | none =>
    have hoffends : (used name scope.known).Offends := lookup_eq_none_iff.mp hv
    rw [firstFault_cons_of_offends hoffends]
    rfl
  | some v =>
    have hknown : ¬ (used name scope.known).Offends := fun h => by
      rw [lookup_eq_none_iff.mpr h] at hv
      cases hv
    rw [firstFault_cons_of_not_offends hknown, ← hf v]
    rfl

theorem declare_of_mem {d : Declaration} (h : d.name ∈ scope.names) :
    scope.declare d = .error (.duplicate d.name) := by
  unfold declare
  cases hv : scope.frame.find d.name with
  | none =>
    obtain ⟨v, hv', hname⟩ := List.mem_map.mp h
    exact absurd hname (Frame.find_eq_none_iff.mp hv v hv')
  | some v => rfl

theorem declare_of_not_mem {d : Declaration} (h : d.name ∉ scope.names) :
    scope.declare d = .ok { scope with frame := scope.frame.add d } := by
  have hnone : scope.frame.find d.name = none :=
    Frame.find_eq_none_iff.mpr fun v hv hname => h (List.mem_map.mpr ⟨v, hv, hname⟩)
  rw [declare, hnone]

theorem declareAll_cons (d : Declaration) (ds : List Declaration) :
    scope.declareAll (d :: ds) = scope.declare d >>= fun next => next.declareAll ds :=
  List.foldlM_cons

theorem names_add (d : Declaration) :
    names { scope with frame := scope.frame.add d } = scope.names ++ [d.name] := by
  simp [names, Frame.add]

theorem of_declareAll {ds : List Declaration} (h : scope.declareAll ds = .ok scope') :
    scope'.className = scope.className ∧ scope'.outer = scope.outer ∧
      scope'.names = scope.names ++ ds.map (·.name) := by
  induction ds generalizing scope with
  | nil =>
    cases h
    exact ⟨rfl, rfl, (List.append_nil _).symm⟩
  | cons d ds ih =>
    rw [declareAll_cons] at h
    by_cases hd : d.name ∈ scope.names
    · rw [declare_of_mem hd] at h
      cases h
    · rw [declare_of_not_mem hd] at h
      obtain ⟨hclass, houter, hnames⟩ := ih h
      refine ⟨hclass, houter, ?_⟩
      rw [hnames, names_add, List.append_assoc]
      rfl

theorem fault?_declareAll (ds : List Declaration) :
    fault? (scope.declareAll ds) = firstFault (ofDeclarations scope.names (ds.map (·.name))) := by
  induction ds generalizing scope with
  | nil => rfl
  | cons d ds ih =>
    rw [declareAll_cons, List.map_cons, ofDeclarations]
    by_cases hd : d.name ∈ scope.names
    · have hoffends : (declared d.name scope.names).Offends := hd
      rw [declare_of_mem hd, firstFault_cons_of_offends hoffends]
      rfl
    · have hfree : ¬ (declared d.name scope.names).Offends := hd
      rw [declare_of_not_mem hd, firstFault_cons_of_not_offends hfree, ← names_add, ← ih]
      rfl

end Scope

end Jack
