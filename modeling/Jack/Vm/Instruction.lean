/-!
Instructions of the stack machine and their text: one instruction a line, every line ended by
a newline. Operands are words of 32 bits; names and labels are written as they are.
-/

namespace Jack

inductive Segment
  | constant | argument | «local» | static | this | that | pointer | temp
deriving DecidableEq, Repr

namespace Segment

def text : Segment → String
  | constant => "constant"
  | argument => "argument"
  | .local => "local"
  | static => "static"
  | this => "this"
  | that => "that"
  | pointer => "pointer"
  | temp => "temp"

def all : List Segment := [constant, argument, .local, static, this, that, pointer, temp]

def ofText? (name : String) : Option Segment := all.find? (·.text == name)

theorem ofText?_text (s : Segment) : ofText? s.text = some s := by
  cases s <;> decide

end Segment

/-- The commands that work on the stack alone. -/
inductive Arithmetic
  | add | sub | neg | eq | gt | lt | and | or | not
deriving DecidableEq, Repr

namespace Arithmetic

def text : Arithmetic → String
  | add => "add"
  | sub => "sub"
  | neg => "neg"
  | eq => "eq"
  | gt => "gt"
  | lt => "lt"
  | and => "and"
  | or => "or"
  | not => "not"

def all : List Arithmetic := [add, sub, neg, eq, gt, lt, and, or, not]

def ofText? (name : String) : Option Arithmetic := all.find? (·.text == name)

theorem ofText?_text (a : Arithmetic) : ofText? a.text = some a := by
  cases a <;> decide

end Arithmetic

inductive Instruction
  | push (segment : Segment) (index : UInt32)
  | pop (segment : Segment) (index : UInt32)
  | arithmetic (command : Arithmetic)
  | label (name : String)
  | goto (target : String)
  | ifGoto (target : String)
  | call (name : String) (arguments : UInt32)
  | function (name : String) (locals : UInt32)
  | «return»
deriving DecidableEq, Repr

def Instruction.text : Instruction → String
  | push segment index => s!"push {segment.text} {index}"
  | pop segment index => s!"pop {segment.text} {index}"
  | arithmetic command => command.text
  | label name => s!"label {name}"
  | goto target => s!"goto {target}"
  | ifGoto target => s!"if-goto {target}"
  | call name arguments => s!"call {name} {arguments}"
  | function name locals => s!"function {name} {locals}"
  | .return => "return"

abbrev Program := List Instruction

def Program.text (program : Program) : String :=
  String.join (program.map fun instruction => instruction.text ++ "\n")

theorem Program.text_append (first second : Program) :
    Program.text (first ++ second) = first.text ++ second.text := by
  simp [Program.text]

end Jack
