import Jack.Error
import Jack.Vm.Instruction

/-!
Scopes. A scope holds the variables declared in it, in order, and those of the scopes around
it. Variables of one kind are numbered from 0 in each scope, and an inner declaration hides
an outer one of the same name.
-/

namespace Jack

inductive VariableKind
  | static | field | argument | «local»
deriving DecidableEq, Repr

namespace VariableKind

def text : VariableKind → String
  | static => "static"
  | field => "field"
  | argument => "argument"
  | .local => "local"

def all : List VariableKind := [static, field, argument, .local]

def ofText? (name : String) : Option VariableKind := all.find? (·.text == name)

theorem ofText?_text (kind : VariableKind) : ofText? kind.text = some kind := by
  cases kind <;> decide

def segment : VariableKind → Segment
  | static => .static
  | field => .this
  | argument => .argument
  | .local => .local

end VariableKind

structure Declaration where
  name : String
  type : String
  kind : VariableKind
deriving DecidableEq, Repr

/-- A declaration and its number among the variables of its kind and scope. -/
structure Variable extends Declaration where
  index : UInt32
deriving DecidableEq, Repr

def Variable.segment (v : Variable) : Segment := v.kind.segment

/-- The variables of one scope, in the order of their declarations. -/
abbrev Frame := List Variable

namespace Frame

def find (frame : Frame) (name : String) : Option Variable :=
  frame.find? (·.name == name)

def count (frame : Frame) (kind : VariableKind) : UInt32 :=
  UInt32.ofNat (frame.countP (·.kind == kind))

def add (frame : Frame) (d : Declaration) : Frame :=
  frame ++ [⟨d, frame.count d.kind⟩]

theorem find_eq_none_iff {frame : Frame} {name : String} :
    frame.find name = none ↔ ∀ v ∈ frame, v.name ≠ name := by
  simp [find]

theorem find_add (frame : Frame) (d : Declaration) (name : String) :
    (frame.add d).find name =
      (frame.find name).or (if d.name = name then some ⟨d, frame.count d.kind⟩ else none) := by
  unfold add find
  rw [List.find?_append]
  by_cases h : d.name = name <;> simp [h]

theorem countP_add (frame : Frame) (d : Declaration) (kind : VariableKind) :
    (frame.add d).countP (·.kind == kind) =
      frame.countP (·.kind == kind) + if d.kind = kind then 1 else 0 := by
  unfold add
  rw [List.countP_append]
  by_cases h : d.kind = kind <;> simp [h]

end Frame

structure Scope where
  className : String
  frame : Frame := []
  /-- The frames around this scope, innermost first. -/
  outer : List Frame := []
deriving DecidableEq, Repr

namespace Scope

/-- The receiver of a method is its first argument, under a name that no source can declare. -/
def receiver (className : String) : Declaration := ⟨"this", className, .argument⟩

/-- The scope of a subroutine declared in this scope. -/
def enter (scope : Scope) (method : Bool) : Scope where
  className := scope.className
  frame := if method then Frame.add [] (receiver scope.className) else []
  outer := scope.frame :: scope.outer

def declare (scope : Scope) (d : Declaration) : Except CompileError Scope :=
  match scope.frame.find d.name with
  | some _ => .error (.duplicate d.name)
  | none => .ok { scope with frame := scope.frame.add d }

def declareAll (scope : Scope) (ds : List Declaration) : Except CompileError Scope :=
  ds.foldlM declare scope

def count (scope : Scope) (kind : VariableKind) : UInt32 := scope.frame.count kind

/-- Fields belong to the class, which is the outermost scope. -/
def fieldCount (scope : Scope) : UInt32 :=
  (scope.outer.getLast?.getD scope.frame).count .field

/-- The innermost declaration of a name. -/
def lookup (scope : Scope) (name : String) : Option Variable :=
  (scope.frame :: scope.outer).findSome? (·.find name)

def resolve (scope : Scope) (name : String) : Except CompileError Variable :=
  match scope.lookup name with
  | some v => .ok v
  | none => .error (.undefined name)

end Scope

end Jack
