import Jack.Expression.Basic
import Jack.Scope
import Jack.Vm.Code

/-!
Code of expressions. Each expression leaves its value on top of the stack. A call leaves the
result of the subroutine there, above nothing that it pushed itself.
-/

namespace Jack

open Code

def UnaryOp.instruction : UnaryOp → Instruction
  | negate => .arithmetic .neg
  | complement => .arithmetic .not

/-- The machine has no product and no quotient; a library class computes them. -/
def BinaryOp.instruction : BinaryOp → Instruction
  | add => .arithmetic .add
  | subtract => .arithmetic .sub
  | multiply => .call "Math.multiply" 2
  | divide => .call "Math.divide" 2
  | and => .arithmetic .and
  | or => .arithmetic .or
  | less => .arithmetic .lt
  | greater => .arithmetic .gt
  | equal => .arithmetic .eq

/-- `true` has all bits set, the complement of zero. -/
def Constant.code : Constant → Program
  | .true => [.push .constant 0, .arithmetic .not]
  | .false => [.push .constant 0]
  | null => [.push .constant 0]
  | this => [.push .pointer 0]

/-- A string is made with room for its characters, which are then appended one by one. -/
def stringCode (text : String) : Program :=
  [.push .constant (UInt32.ofNat text.length), .call "String.new" 1] ++
    text.toList.flatMap fun c => [.push .constant c.val, .call "String.appendChar" 2]

def Variable.push (v : Variable) : Instruction := .push v.segment v.index

def Variable.pop (v : Variable) : Instruction := .pop v.segment v.index

/-- The receiver that a call passes, if it passes one, and the class that the call names.
A bare name is a method of the object at hand; a receiver that names a variable is the object
in it, and any other receiver is a class. -/
def Scope.dispatch (scope : Scope) : Option String → Program × String
  | none => ([.push .pointer 0], scope.className)
  | some receiver =>
    match scope.lookup receiver with
    | some v => ([v.push], v.type)
    | none => ([], receiver)

mutual

def Expression.code (scope : Scope) : Expression → Code
  | .term value => value.code scope
  | .binary left op right => left.code scope ++ right.code scope ++ emit [op.instruction]

def Term.code (scope : Scope) : Term → Code
  | .integer value => emit [.push .constant value]
  | .string text => emit (stringCode text)
  | .constant value => emit value.code
  | .variable name => do
    let v ← scope.resolve name
    emit [v.push]
  | .element array index => do
    let v ← scope.resolve array
    emit [v.push] ++ index.code scope ++
      emit [.arithmetic .add, .pop .pointer 1, .push .that 0]
  | .parenthesized inner => inner.code scope
  | .unary op operand => operand.code scope ++ emit [op.instruction]
  | .call target => target.code scope

def Call.code (scope : Scope) : Call → Code
  | .mk receiver name arguments =>
    let (object, owner) := scope.dispatch receiver
    emit object ++ Expression.listCode scope arguments ++
      emit [.call s!"{owner}.{name}" (UInt32.ofNat (arguments.length + object.length))]

def Expression.listCode (scope : Scope) : List Expression → Code
  | [] => emit []
  | first :: others => first.code scope ++ Expression.listCode scope others

end

end Jack
