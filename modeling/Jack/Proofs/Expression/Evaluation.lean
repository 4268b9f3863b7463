import Mathlib.Algebra.Group.Nat.Defs
import Jack.Proofs.Vm.Machine
import Jack.Scope
import Jack.Expression.Basic

/-! The value of an expression, found without code or machine. Evaluation goes strictly from
left to right and passes the memory along, since any call may change it; nothing but the memory
can change. It fails only at a name without a declaration. -/

namespace Jack

/-- The slot of a variable; fields belong to the object at hand. -/
def Variable.read (v : Variable) (s : Store) : Word :=
  match v.kind with
  | .static => s.memory.statics v.index
  | .field => s.memory.heap (s.this + .ofOperand v.index)
  | .argument => s.arguments v.index
  | .local => s.locals v.index

def UnaryOp.apply : UnaryOp → Word → Word
  | negate, x => -x
  | complement, x => ~~~x

/-- Products and quotients are calls, and so may change the memory. -/
def BinaryOp.apply (oracle : Oracle) (x y : Word) (memory : Memory) : BinaryOp → Word × Memory
  | add => (x + y, memory)
  | subtract => (x - y, memory)
  | multiply => oracle.call "Math.multiply" [x, y] memory
  | divide => oracle.call "Math.divide" [x, y] memory
  | and => (x &&& y, memory)
  | or => (x ||| y, memory)
  | less => (.ofBool (x.slt y), memory)
  | greater => (.ofBool (y.slt x), memory)
  | equal => (.ofBool (x == y), memory)

def Constant.value (s : Store) : Constant → Word
  | .true => BitVec.allOnes 16
  | .false => 0
  | null => 0
  | this => s.this

/-- A new string with room for all characters of a text, which are appended one by one. -/
def stringValue (oracle : Oracle) (text : String) (memory : Memory) : Word × Memory :=
  text.toList.foldl
    (fun made c => oracle.call "String.appendChar" [made.1, BitVec.ofNat 16 c.toNat] made.2)
    (oracle.call "String.new" [BitVec.ofNat 16 text.length] memory)

/-- The object that a call passes before its arguments, if it passes one, and the class that it
names. A bare name is called on the object at hand, a receiver that names a variable on the
object in it; any other receiver is a class and passes no object. -/
def Scope.addressee (scope : Scope) (s : Store) : Option String → List Word × String
  | none => ([s.this], scope.className)
  | some receiver =>
    match scope.lookup receiver with
    | some v => ([v.read s], v.type)
    | none => ([], receiver)

mutual

def Expression.eval (oracle : Oracle) (scope : Scope) :
    Expression → Store → Option (Word × Memory)
  | .term value, s => value.eval oracle scope s
  | .binary left op right, s => do
    let (x, memory) ← left.eval oracle scope s
    let (y, memory) ← right.eval oracle scope (s.withMemory memory)
    return op.apply oracle x y memory

def Term.eval (oracle : Oracle) (scope : Scope) : Term → Store → Option (Word × Memory)
  | .integer value, s => some (.ofOperand value, s.memory)
  | .string text, s => some (stringValue oracle text s.memory)
  | .constant value, s => some (value.value s, s.memory)
  | .variable name, s => do
    let v ← scope.lookup name
    return (v.read s, s.memory)
  | .element array index, s => do
    let v ← scope.lookup array
    let (i, memory) ← index.eval oracle scope s
    return (memory.heap (v.read s + i), memory)
  | .parenthesized inner, s => inner.eval oracle scope s
  | .unary op operand, s => do
    let (x, memory) ← operand.eval oracle scope s
    return (op.apply x, memory)
  | .call target, s => target.eval oracle scope s

def Call.eval (oracle : Oracle) (scope : Scope) : Call → Store → Option (Word × Memory)
  | .mk receiver name arguments, s => do
    let (objects, owner) := scope.addressee s receiver
    let (values, memory) ← Expression.listEval oracle scope arguments s
    return oracle.call s!"{owner}.{name}" (objects ++ values) memory

def Expression.listEval (oracle : Oracle) (scope : Scope) :
    List Expression → Store → Option (List Word × Memory)
  | [], s => some ([], s.memory)
  | first :: others, s => do
    let (value, memory) ← first.eval oracle scope s
    let (values, memory) ← Expression.listEval oracle scope others (s.withMemory memory)
    return (value :: values, memory)

end

/-! The names that an expression needs, and the size of its calls. -/

mutual

/-- The variables and arrays that an expression reads, in the order of the text. -/
def Expression.uses : Expression → List String
  | .term value => value.uses
  | .binary left _ right => left.uses ++ right.uses

def Term.uses : Term → List String
  | .integer _ | .string _ | .constant _ => []
  | .variable name => [name]
  | .element array index => array :: index.uses
  | .parenthesized inner => inner.uses
  | .unary _ operand => operand.uses
  | .call target => target.uses

def Call.uses : Call → List String
  | .mk _ _ arguments => Expression.listUses arguments

def Expression.listUses : List Expression → List String
  | [] => []
  | first :: others => first.uses ++ Expression.listUses others

end

mutual

/-- No call has so many arguments that a word of 32 bits cannot count them and the receiver. -/
def Expression.callsFit : Expression → Bool
  | .term value => value.callsFit
  | .binary left _ right => left.callsFit && right.callsFit

def Term.callsFit : Term → Bool
  | .integer _ | .string _ | .constant _ | .variable _ => true
  | .element _ index => index.callsFit
  | .parenthesized inner => inner.callsFit
  | .unary _ operand => operand.callsFit
  | .call target => target.callsFit

def Call.callsFit : Call → Bool
  | .mk _ _ arguments =>
    decide (arguments.length < 2 ^ 32 - 1) && Expression.listCallsFit arguments

def Expression.listCallsFit : List Expression → Bool
  | [] => true
  | first :: others => first.callsFit && Expression.listCallsFit others

end

end Jack
