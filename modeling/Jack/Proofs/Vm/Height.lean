import Jack.Proofs.Vm.Run

/-! Heights of the operand stack. Code that keeps a height for each of its instructions, whichever
way control got there, never takes an operand that is not its own. Where the stack is empty at
each label and in front of each jump, the heights are found by going through the code once. -/

namespace Jack

namespace Instruction

/-- How many words an instruction takes from the stack. A `return` takes the result. -/
def pops : Instruction → Nat
  | push _ _ | label _ | goto _ | function _ _ => 0
  | pop _ _ | ifGoto _ | .return => 1
  | arithmetic .neg | arithmetic .not => 1
  | arithmetic _ => 2
  | call _ n => n.toNat

def pushes : Instruction → Nat
  | push _ _ | arithmetic _ | call _ _ => 1
  | _ => 0

/-- Nothing may lie below the operands of these instructions. -/
def clears : Instruction → Bool
  | label _ | goto _ | ifGoto _ | .return => true
  | _ => false

/-- The height behind an instruction, if the height in front of it is allowed. -/
def height? (i : Instruction) (h : Nat) : Option Nat :=
  if i.pops ≤ h ∧ (i.clears → h = i.pops) then some (h - i.pops + i.pushes) else none

theorem height?_eq_some_iff {i : Instruction} {h h' : Nat} :
    i.height? h = some h' ↔
      i.pops ≤ h ∧ (i.clears → h = i.pops) ∧ h' = h - i.pops + i.pushes := by
  rw [height?, Option.ite_none_right_eq_some, and_assoc, Option.some.injEq, eq_comm (a := h')]

variable {segment : Segment} {index : UInt32} {name : String}

@[simp] theorem height?_push (h : Nat) : (push segment index).height? h = some (h + 1) := rfl

@[simp] theorem height?_pop (h : Nat) : (pop segment index).height? (h + 1) = some h := by
  simp [height?_eq_some_iff, pops, clears, pushes]

@[simp] theorem height?_neg (h : Nat) : (arithmetic .neg).height? (h + 1) = some (h + 1) := by
  simp [height?_eq_some_iff, pops, clears, pushes]

@[simp] theorem height?_not (h : Nat) : (arithmetic .not).height? (h + 1) = some (h + 1) := by
  simp [height?_eq_some_iff, pops, clears, pushes]

@[simp] theorem height?_add (h : Nat) : (arithmetic .add).height? (h + 2) = some (h + 1) := by
  simp [height?_eq_some_iff, pops, clears, pushes]

theorem height?_call {n : UInt32} {k : Nat} (hn : n.toNat = k) (h : Nat) :
    (call name n).height? (h + k) = some (h + 1) := by
  simp [height?_eq_some_iff, pops, clears, pushes, hn]

@[simp] theorem height?_function {n : UInt32} (h : Nat) : (function name n).height? h = some h :=
  rfl

@[simp] theorem height?_label : (label name).height? 0 = some 0 := rfl

@[simp] theorem height?_goto : (goto name).height? 0 = some 0 := rfl

@[simp] theorem height?_ifGoto : (ifGoto name).height? 1 = some 0 := rfl

@[simp] theorem height?_return : Instruction.return.height? 1 = some 0 := rfl

end Instruction

namespace Program

/-- Where control may be behind the instruction at `pc`: a jump may go to any place at which its
label stands. -/
def Next (block : Program) (pc next : Nat) : Prop :=
  match block[pc]? with
  | none | some .return => False
  | some (.goto target) => block[next]? = some (.label target)
  | some (.ifGoto target) => next = pc + 1 ∨ block[next]? = some (.label target)
  | some _ => next = pc + 1

/-- What the heights in front of the instructions of a subroutine have to satisfy. -/
structure Disciplined (block : Program) (height : Nat → Nat) : Prop where
  start : height 1 = 0
  operands : ∀ {pc i}, block[pc]? = some i → i.pops ≤ height pc
  next : ∀ {pc i next}, block[pc]? = some i → block.Next pc next →
    height next = height pc - i.pops + i.pushes
  atLabel : ∀ {pc name}, block[pc]? = some (.label name) → height pc = 0
  atReturn : ∀ {pc}, block[pc]? = some .return → height pc = 1

/-- The height behind a piece of code when `h` is the height in front of it. -/
def height? (p : Program) (h : Nat) : Option Nat := p.foldlM (fun h i => i.height? h) h

@[simp] theorem height?_nil (h : Nat) : height? [] h = some h := rfl

@[simp] theorem height?_cons (i : Instruction) (p : Program) (h : Nat) :
    height? (i :: p) h = (i.height? h).bind p.height? := rfl

theorem height?_append (p q : Program) (h : Nat) :
    (p ++ q).height? h = (p.height? h).bind q.height? := List.foldlM_append

/-- The height in front of each instruction. -/
def heights (block : Program) (pc : Nat) : Nat := (height? (block.take pc) 0).getD 0

variable {block : Program}

theorem heights_of_append {p q : Program} {h : Nat} (hp : p.height? 0 = some h) :
    heights (p ++ q) p.length = h := by
  rw [heights, List.take_left, hp, Option.getD_some]

theorem height?_heights (h : (block.height? 0).isSome) {pc : Nat} {i : Instruction}
    (hi : block[pc]? = some i) : i.height? (block.heights pc) = some (block.heights (pc + 1)) := by
  obtain ⟨hlt, rfl⟩ := List.getElem?_eq_some_iff.mp hi
  have hsplit : block = block.take pc ++ block[pc] :: block.drop (pc + 1) := by simp
  have htake : block.take (pc + 1) = block.take pc ++ [block[pc]] := by simp
  rw [hsplit, height?_append] at h
  cases hfront : height? (block.take pc) 0 with
  | none =>
    rw [hfront] at h
    cases h
  | some h₀ =>
    rw [hfront, Option.bind_some, height?_cons] at h
    cases hbehind : block[pc].height? h₀ with
    | none =>
      rw [hbehind] at h
      cases h
    | some h₁ =>
      unfold heights
      rw [htake, height?_append, hfront]
      simp [hbehind]

theorem disciplined_heights {name : String} {locals : UInt32} {rest : Program}
    (h : (rest.height? 0).isSome) :
    Disciplined (.function name locals :: rest) (heights (.function name locals :: rest)) := by
  have hsome : (height? (.function name locals :: rest) 0).isSome := by simpa using h
  have hlabel {pc label}
      (hi : (Instruction.function name locals :: rest)[pc]? = some (.label label)) :
      heights (.function name locals :: rest) pc = 0 := by
    obtain ⟨-, hclears, -⟩ := Instruction.height?_eq_some_iff.mp (height?_heights hsome hi)
    exact hclears rfl
  constructor
  · simp [heights]
  · intro pc i hi
    exact (Instruction.height?_eq_some_iff.mp (height?_heights hsome hi)).1
  · intro pc i next hi hnext
    obtain ⟨-, hclears, hbehind⟩ :=
      Instruction.height?_eq_some_iff.mp (height?_heights hsome hi)
    rw [Next, hi] at hnext
    -- the height is 0 at the label of a jump and also behind the jump
    cases i with
    | goto target => rw [hlabel hnext, hclears rfl]; rfl
    | ifGoto target =>
      rcases hnext with rfl | hnext
      · exact hbehind
      · rw [hlabel hnext, hclears rfl]; rfl
    | «return» => cases hnext
    | _ =>
      cases hnext
      exact hbehind
  · exact hlabel
  · intro pc hi
    obtain ⟨-, hclears, -⟩ := Instruction.height?_eq_some_iff.mp (height?_heights hsome hi)
    exact hclears rfl

end Program

/-! Heights are what a run finds on the stack. -/

theorem Machine.stack_write {m m' : Machine} {segment : Segment} {index : UInt32} {w : Word}
    (h : m.write segment index w = some m') : m'.stack = m.stack := by
  cases segment with
  | pointer =>
    simp only [write] at h
    split_ifs at h <;> cases h <;> rfl
  | constant => cases h
  | _ =>
    cases h
    rfl

theorem Arithmetic.length_apply {command : Arithmetic} {stack stack' : List Word}
    (h : command.apply stack = some stack') :
    (Instruction.arithmetic command).pops ≤ stack.length ∧
      stack'.length = stack.length - (Instruction.arithmetic command).pops + 1 := by
  unfold apply at h
  split at h <;> cases h <;> simp [Instruction.pops]

theorem Instruction.stack_length_of_effect {oracle : Oracle} {i : Instruction} {m m' : Machine}
    (h : i.effect oracle m = some m') : i.pops ≤ m.stack.length ∧
      m'.stack.length = m.stack.length - i.pops + i.pushes := by
  cases i with
  | push segment index =>
    obtain ⟨w, -, rfl⟩ := Option.map_eq_some_iff.mp h
    exact ⟨Nat.zero_le _, rfl⟩
  | pop segment index =>
    rw [effect] at h
    split at h
    · cases h
    · next w stack hstack =>
      rw [Machine.stack_write h, hstack]
      exact ⟨Nat.succ_le_succ (Nat.zero_le _), rfl⟩
  | arithmetic command =>
    obtain ⟨stack, hstack, rfl⟩ := Option.map_eq_some_iff.mp h
    exact Arithmetic.length_apply hstack
  | label name | function name locals =>
    cases h
    exact ⟨Nat.zero_le _, rfl⟩
  | call name n =>
    obtain ⟨hle, h⟩ := Option.ite_none_right_eq_some.mp h
    cases h
    refine ⟨hle, ?_⟩
    simp [Machine.call, pops, pushes]
  | goto target | ifGoto target | «return» => cases h

namespace Program

theorem getElem?_of_position {program : Program} {name : String} {pc : Nat}
    (h : program.position name = some pc) : program[pc]? = some (.label name) := by
  obtain ⟨hlt, heq, -⟩ := List.findIdx?_eq_some_iff_getElem.mp h
  rw [List.getElem?_eq_getElem hlt, eq_of_beq heq]

end Program

namespace State

variable {oracle : Oracle} {block : Program} {height : Nat → Nat} {s t : State}

/-- A step takes the operands of its instruction and leaves what the instruction pushes. -/
theorem stack_length_of_step (h : s.step oracle block = some t) :
    ∃ i, block[s.pc]? = some i ∧ block.Next s.pc t.pc ∧ i.pops ≤ s.machine.stack.length ∧
      t.machine.stack.length = s.machine.stack.length - i.pops + i.pushes := by
  unfold step at h
  unfold Program.Next
  split at h
  · cases h
  · next target hi =>
    obtain ⟨pc, hpc, rfl⟩ := Option.map_eq_some_iff.mp h
    refine ⟨_, hi, ?_, Nat.zero_le _, rfl⟩
    rw [hi]
    exact Program.getElem?_of_position hpc
  · next target hi =>
    split at h
    · cases h
    · next w stack hstack =>
      obtain ⟨pc, hpc, rfl⟩ := Option.map_eq_some_iff.mp h
      refine ⟨_, hi, ?_, ?_, ?_⟩
      · rw [hi]
        split at hpc
        · cases hpc
          exact .inl rfl
        · exact .inr (Program.getElem?_of_position hpc)
      · rw [hstack]
        exact Nat.succ_le_succ (Nat.zero_le _)
      · rw [hstack]
        rfl
  · next i hgoto hifGoto hi =>
    obtain ⟨m, hm, rfl⟩ := Option.map_eq_some_iff.mp h
    obtain ⟨hpops, hlength⟩ := Instruction.stack_length_of_effect hm
    refine ⟨i, hi, ?_, hpops, hlength⟩
    rw [hi]
    cases i <;> first | rfl | cases hm

end State

namespace Program.Disciplined

variable {oracle : Oracle} {block : Program} {height : Nat → Nat} {s t : State}

theorem stack_length_of_step (disciplined : block.Disciplined height) {below : Nat}
    (hs : s.machine.stack.length = below + height s.pc) (h : s.step oracle block = some t) :
    t.machine.stack.length = below + height t.pc := by
  obtain ⟨i, hi, hnext, -, hlength⟩ := State.stack_length_of_step h
  have hoperands := disciplined.operands hi
  rw [hlength, hs, disciplined.next hi hnext]
  omega

/-- Wherever a run comes, it finds the words that were on the stack when it began, and on top of
them as many as the height says. -/
theorem stack_length_of_reaches (disciplined : block.Disciplined height) {below : Nat}
    (hs : s.machine.stack.length = below + height s.pc) (h : s.Reaches oracle block t) :
    t.machine.stack.length = below + height t.pc := by
  obtain ⟨n, hn⟩ := h
  induction n generalizing s with
  | zero =>
    cases hn
    exact hs
  | succ n ih =>
    obtain ⟨between, hstep, hrest⟩ := Option.bind_eq_some_iff.mp hn
    exact ih (disciplined.stack_length_of_step hs hstep) hrest

end Program.Disciplined

end Jack
