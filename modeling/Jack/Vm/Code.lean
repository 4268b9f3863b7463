import Jack.Error
import Jack.Vm.Instruction

/-!
Code under construction: instructions, or the fault that keeps them from being made. Putting
two pieces one after the other keeps the fault of the first piece that has one.
-/

namespace Jack

abbrev Code := Except CompileError Program

namespace Code

def emit (instructions : Program) : Code := .ok instructions

instance : Append Code where
  append first second := do
    let before ← first
    let after ← second
    return before ++ after

theorem ok_append_ok (before after : Program) :
    (.ok before : Code) ++ (.ok after : Code) = .ok (before ++ after) := rfl

theorem error_append (e : CompileError) (second : Code) :
    (.error e : Code) ++ second = .error e := rfl

theorem ok_append_error (before : Program) (e : CompileError) :
    (.ok before : Code) ++ (.error e : Code) = .error e := rfl

theorem append_eq_ok_iff {first second : Code} {program : Program} :
    first ++ second = .ok program ↔
      ∃ before after, first = .ok before ∧ second = .ok after ∧ before ++ after = program := by
  cases first <;> cases second <;>
    simp [ok_append_ok, error_append, ok_append_error]

end Code

end Jack
