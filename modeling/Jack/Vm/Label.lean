/-!
Labels of the jumps in compiled code. The statements of a class that need labels are numbered
in the order in which they begin, conditionals and loops apart, so the number of a statement
is how many of its kind begin before it.
-/

namespace Jack

inductive LabelKind
  | ifFalse | ifEnd | whileStart | whileEnd
deriving DecidableEq, Repr

def LabelKind.text : LabelKind → String
  | ifFalse => "IF_FALSE"
  | ifEnd => "IF_END"
  | whileStart => "WHILE_START"
  | whileEnd => "WHILE_END"

/-- The name of a label: class, kind and number, the number as a word of 32 bits. -/
def labelName (className : String) (kind : LabelKind) (number : Nat) : String :=
  s!"{className}.{kind.text}${UInt32.ofNat number}"

/-- How many conditionals and loops there are in a piece of a class. -/
@[ext]
structure LabelCount where
  ifs : Nat := 0
  whiles : Nat := 0
deriving DecidableEq, Repr

namespace LabelCount

instance : Zero LabelCount := ⟨⟨0, 0⟩⟩

instance : Add LabelCount := ⟨fun a b => ⟨a.ifs + b.ifs, a.whiles + b.whiles⟩⟩

@[simp] theorem zero_ifs : (0 : LabelCount).ifs = 0 := rfl

@[simp] theorem zero_whiles : (0 : LabelCount).whiles = 0 := rfl

@[simp] theorem add_ifs (a b : LabelCount) : (a + b).ifs = a.ifs + b.ifs := rfl

@[simp] theorem add_whiles (a b : LabelCount) : (a + b).whiles = a.whiles + b.whiles := rfl

end LabelCount

end Jack
