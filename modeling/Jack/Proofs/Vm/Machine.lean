import Mathlib.Logic.Function.Basic
import Jack.Vm.Instruction

/-! The machine that runs compiled code. It works on words of 16 bits, which serve as numbers,
as addresses of the heap and as truth values. What a called subroutine does is not known
here: an oracle answers each call, and nothing is assumed about its answers. -/

namespace Jack

abbrev Word := BitVec 16

namespace Word

/-- The word of an operand, which keeps its lower half. -/
def ofOperand (n : UInt32) : Word := BitVec.ofNat 16 n.toNat

def ofBool (b : Bool) : Word := if b then BitVec.allOnes 16 else 0

end Word

/-- What all subroutines share. -/
structure Memory where
  heap : Word → Word
  statics : UInt32 → Word

/-- What the statements of a subroutine can see and change. `this` is pointer 0. -/
structure Store where
  arguments : UInt32 → Word
  locals : UInt32 → Word
  this : Word
  memory : Memory

def Store.withMemory (store : Store) (memory : Memory) : Store := { store with memory := memory }

@[simp] theorem Store.withMemory_memory (s : Store) (m : Memory) : (s.withMemory m).memory = m :=
  rfl

@[simp] theorem Store.withMemory_withMemory (s : Store) (m m' : Memory) :
    (s.withMemory m).withMemory m' = s.withMemory m' := rfl

@[simp] theorem Store.withMemory_self (s : Store) : s.withMemory s.memory = s := rfl

def Store.writeHeap (s : Store) (address w : Word) : Store :=
  { s with memory.heap := Function.update s.memory.heap address w }

/-- What only the code can see: pointer 1 and the temporary words. -/
structure Scratch where
  that : Word
  temp : UInt32 → Word

/-- The answers to calls. A call takes its arguments and the memory, and it leaves a result and
another memory. The scratch words are free for it to overwrite; all else of the caller stays. -/
structure Oracle where
  call : String → List Word → Memory → Word × Memory
  scratch : String → List Word → Memory → Scratch → Scratch

structure Machine where
  store : Store
  scratch : Scratch
  stack : List Word

namespace Machine

def read (m : Machine) : Segment → UInt32 → Option Word
  | .constant, i => some (.ofOperand i)
  | .argument, i => some (m.store.arguments i)
  | .local, i => some (m.store.locals i)
  | .static, i => some (m.store.memory.statics i)
  | .this, i => some (m.store.memory.heap (m.store.this + .ofOperand i))
  | .that, i => some (m.store.memory.heap (m.scratch.that + .ofOperand i))
  | .pointer, i =>
    if i = 0 then some m.store.this else if i = 1 then some m.scratch.that else none
  | .temp, i => some (m.scratch.temp i)

def write (m : Machine) : Segment → UInt32 → Word → Option Machine
  | .constant, _, _ => none
  | .argument, i, w =>
    some { m with store.arguments := Function.update m.store.arguments i w }
  | .local, i, w => some { m with store.locals := Function.update m.store.locals i w }
  | .static, i, w =>
    some { m with store.memory.statics := Function.update m.store.memory.statics i w }
  | .this, i, w => some { m with store := m.store.writeHeap (m.store.this + .ofOperand i) w }
  | .that, i, w => some { m with store := m.store.writeHeap (m.scratch.that + .ofOperand i) w }
  | .pointer, i, w =>
    if i = 0 then some { m with store.this := w }
    else if i = 1 then some { m with scratch.that := w }
    else none
  | .temp, i, w => some { m with scratch.temp := Function.update m.scratch.temp i w }

/-- The last `n` words of the stack, in the order in which they were pushed, are the arguments. -/
def call (oracle : Oracle) (name : String) (n : Nat) (m : Machine) : Machine :=
  let arguments := (m.stack.take n).reverse
  let answer := oracle.call name arguments m.store.memory
  { store := m.store.withMemory answer.2
    scratch := oracle.scratch name arguments m.store.memory m.scratch
    stack := answer.1 :: m.stack.drop n }

end Machine

/-- The stack after a command. The second operand is on top. -/
def Arithmetic.apply : Arithmetic → List Word → Option (List Word)
  | neg, x :: stack => some (-x :: stack)
  | not, x :: stack => some (~~~x :: stack)
  | add, y :: x :: stack => some ((x + y) :: stack)
  | sub, y :: x :: stack => some ((x - y) :: stack)
  | eq, y :: x :: stack => some (.ofBool (x == y) :: stack)
  | gt, y :: x :: stack => some (.ofBool (y.slt x) :: stack)
  | lt, y :: x :: stack => some (.ofBool (x.slt y) :: stack)
  | and, y :: x :: stack => some ((x &&& y) :: stack)
  | or, y :: x :: stack => some ((x ||| y) :: stack)
  | _, _ => none

/-- What an instruction does to the machine, jumps apart; `none` if it cannot be run. -/
def Instruction.effect (oracle : Oracle) (m : Machine) : Instruction → Option Machine
  | push segment index => (m.read segment index).map fun w => { m with stack := w :: m.stack }
  | pop segment index =>
    match m.stack with
    | [] => none
    | w :: stack => { m with stack := stack }.write segment index w
  | arithmetic command => (command.apply m.stack).map fun stack => { m with stack := stack }
  | label _ => some m
  | call name n => if n.toNat ≤ m.stack.length then some (m.call oracle name n.toNat) else none
  | function _ n => some { m with store.locals := fun i => if i < n then 0 else m.store.locals i }
  | goto _ | ifGoto _ | .return => none

namespace Program

/-- Running straight through a piece of code that does not jump. -/
def execute (oracle : Oracle) : Program → Machine → Option Machine
  | [], m => some m
  | i :: rest, m => (i.effect oracle m).bind (execute oracle rest)

variable {oracle : Oracle}

theorem execute_append (first second : Program) (m : Machine) :
    execute oracle (first ++ second) m = (execute oracle first m).bind (execute oracle second) := by
  induction first generalizing m with
  | nil => rfl
  | cons i rest ih =>
    simp only [List.cons_append, execute, Option.bind_assoc]
    exact congrArg _ (funext ih)

/-- Whatever the scratch words hold, the code can be run straight through, and it takes one store
and stack to another. -/
def Runs (oracle : Oracle) (p : Program) (s : Store) (stack : List Word) (s' : Store)
    (stack' : List Word) : Prop :=
  ∀ scratch, ∃ scratch', execute oracle p ⟨s, scratch, stack⟩ = some ⟨s', scratch', stack'⟩

theorem Runs.refl (s : Store) (stack : List Word) : Runs oracle [] s stack s stack :=
  fun scratch => ⟨scratch, rfl⟩

theorem Runs.append {p q : Program} {s s' s'' : Store} {stack stack' stack'' : List Word}
    (first : Runs oracle p s stack s' stack') (second : Runs oracle q s' stack' s'' stack'') :
    Runs oracle (p ++ q) s stack s'' stack'' := by
  intro scratch
  obtain ⟨between, hfirst⟩ := first scratch
  obtain ⟨scratch', hsecond⟩ := second between
  exact ⟨scratch', by rw [execute_append, hfirst, Option.bind_some, hsecond]⟩

end Program

end Jack
