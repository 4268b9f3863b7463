import Mathlib.Data.BitVec
import Jack.Proofs.Expression.Shape
import Jack.Proofs.Vm.Run

/-! Code of expressions computes their values. The code of an expression has no jumps, so it is
enough to run straight through it: wherever it starts, it leaves what was on the stack alone and
puts the value on top. -/

namespace Jack

open Code

variable (oracle : Oracle) {scope : Scope}

/-- Code that leaves one value, the one that `value` gives, above the stack that it found. -/
def Program.Computes (oracle : Oracle) (p : Program)
    (value : Store → Option (Word × Memory)) : Prop :=
  ∀ s, ∃ result, value s = some result ∧
    ∀ stack, p.Runs oracle s stack (s.withMemory result.2) (result.1 :: stack)

theorem Program.Computes.runs {oracle : Oracle} {p : Program}
    {value : Store → Option (Word × Memory)} (computes : p.Computes oracle value) {s : Store}
    {w : Word} {memory : Memory} (hvalue : value s = some (w, memory)) (stack : List Word) :
    p.Runs oracle s stack (s.withMemory memory) (w :: stack) := by
  obtain ⟨result, hresult, runs⟩ := computes s
  rw [hvalue, Option.some.injEq] at hresult
  subst hresult
  exact runs stack

/-- Code that leaves several values, the last one on top. -/
def Program.ComputesAll (oracle : Oracle) (p : Program)
    (values : Store → Option (List Word × Memory)) : Prop :=
  ∀ s, ∃ result, values s = some result ∧
    ∀ stack, p.Runs oracle s stack (s.withMemory result.2) (result.1.reverse ++ stack)

theorem Variable.read_segment (v : Variable) (m : Machine) :
    m.read v.segment v.index = some (v.read m.store) := by
  unfold Variable.segment Variable.read
  cases v.kind <;> rfl

theorem Variable.runs_push (v : Variable) (s : Store) (stack : List Word) :
    Program.Runs oracle [v.push] s stack s (v.read s :: stack) := by
  intro scratch
  exact ⟨scratch, by simp [Program.execute, Variable.push, Instruction.effect, v.read_segment]⟩

theorem runs_call (name : String) {n : UInt32} (arguments : List Word)
    (hn : n.toNat = arguments.length) (s : Store) (stack : List Word) :
    Program.Runs oracle [.call name n] s (arguments.reverse ++ stack)
      (s.withMemory (oracle.call name arguments s.memory).2)
      ((oracle.call name arguments s.memory).1 :: stack) := by
  intro scratch
  have hlen : n.toNat = arguments.reverse.length := by rw [List.length_reverse, hn]
  refine ⟨oracle.scratch name arguments s.memory scratch, ?_⟩
  simp [Program.execute, Instruction.effect, Machine.call, hlen]

theorem UnaryOp.runs_instruction (op : UnaryOp) (x : Word) (s : Store) (stack : List Word) :
    Program.Runs oracle [op.instruction] s (x :: stack) s (op.apply x :: stack) := by
  intro scratch
  cases op <;> exact ⟨scratch, rfl⟩

theorem BinaryOp.runs_instruction (op : BinaryOp) (x y : Word) (s : Store) (stack : List Word) :
    Program.Runs oracle [op.instruction] s (y :: x :: stack)
      (s.withMemory (op.apply oracle x y s.memory).2)
      ((op.apply oracle x y s.memory).1 :: stack) := by
  -- two operators are calls, and the others are commands that leave the memory alone
  cases op
  case multiply => exact runs_call oracle "Math.multiply" [x, y] rfl s stack
  case divide => exact runs_call oracle "Math.divide" [x, y] rfl s stack
  all_goals exact fun scratch => ⟨scratch, rfl⟩

theorem Constant.runs_code (c : Constant) (s : Store) (stack : List Word) :
    Program.Runs oracle c.code s stack s (c.value s :: stack) := by
  intro scratch
  cases c <;> exact ⟨scratch, rfl⟩

/-- Only the lower half of a length reaches the stack, so it does not matter that lengths are
counted in 32 bits. -/
theorem Word.ofOperand_ofNat (n : Nat) : Word.ofOperand (UInt32.ofNat n) = BitVec.ofNat 16 n := by
  apply BitVec.eq_of_toNat_eq
  simp only [Word.ofOperand, UInt32.toNat_ofNat', BitVec.toNat_ofNat]
  omega

theorem runs_appendChars (cs : List Char) (made : Word × Memory) (s : Store) (stack : List Word) :
    let whole := cs.foldl (fun made c =>
      oracle.call "String.appendChar" [made.1, BitVec.ofNat 16 c.toNat] made.2) made
    Program.Runs oracle
      (cs.flatMap fun c => [.push .constant c.val, .call "String.appendChar" 2])
      (s.withMemory made.2) (made.1 :: stack) (s.withMemory whole.2) (whole.1 :: stack) := by
  induction cs generalizing made with
  | nil => exact Program.Runs.refl _ _
  | cons c cs ih =>
    have hpush : Program.Runs oracle [.push .constant c.val] (s.withMemory made.2)
        (made.1 :: stack) (s.withMemory made.2) (BitVec.ofNat 16 c.toNat :: made.1 :: stack) :=
      fun scratch => ⟨scratch, rfl⟩
    have hcall := runs_call oracle "String.appendChar" (n := 2)
      [made.1, BitVec.ofNat 16 c.toNat] rfl (s.withMemory made.2) stack
    exact (hpush.append hcall).append (ih _)

theorem runs_stringCode (text : String) (s : Store) (stack : List Word) :
    Program.Runs oracle (stringCode text) s stack
      (s.withMemory (stringValue oracle text s.memory).2)
      ((stringValue oracle text s.memory).1 :: stack) := by
  have hpush : Program.Runs oracle [.push .constant (UInt32.ofNat text.length)] s stack s
      (BitVec.ofNat 16 text.length :: stack) :=
    fun scratch => ⟨scratch, by rw [← Word.ofOperand_ofNat]; rfl⟩
  have hcall := runs_call oracle "String.new" (n := 1)
    [BitVec.ofNat 16 text.length] rfl s stack
  exact (hpush.append hcall).append (runs_appendChars oracle text.toList _ s stack)

/-- The address of an array element passes through pointer 1, which nothing else relies on. -/
theorem runs_loadElement (s : Store) (array index : Word) (stack : List Word) :
    Program.Runs oracle [.arithmetic .add, .pop .pointer 1, .push .that 0] s
      (index :: array :: stack) s (s.memory.heap (array + index) :: stack) := by
  intro scratch
  refine ⟨{ scratch with that := array + index }, ?_⟩
  simp [Program.execute, Instruction.effect, Arithmetic.apply, Machine.write, Machine.read,
    Word.ofOperand]

theorem Scope.runs_dispatch (receiver : Option String) (s : Store) (stack : List Word) :
    Program.Runs oracle (scope.dispatch receiver).1 s stack s
      ((scope.addressee s receiver).1.reverse ++ stack) := by
  unfold Scope.dispatch Scope.addressee
  cases receiver with
  | none => exact fun scratch => ⟨scratch, rfl⟩
  | some name =>
    cases hv : scope.lookup name with
    | none =>
      simp only [hv]
      exact Program.Runs.refl s stack
    | some v =>
      simp only [hv]
      exact v.runs_push oracle s stack

theorem Scope.dispatch_eq (scope : Scope) (receiver : Option String) (s : Store) :
    (scope.dispatch receiver).2 = (scope.addressee s receiver).2 ∧
      (scope.dispatch receiver).1.length = (scope.addressee s receiver).1.length := by
  unfold Scope.dispatch Scope.addressee
  cases receiver with
  | none => exact ⟨rfl, rfl⟩
  | some name =>
    cases hv : scope.lookup name <;> simp [hv]

theorem Expression.listEval_length {es : List Expression} {s : Store} {values : List Word}
    {memory : Memory} (h : Expression.listEval oracle scope es s = some (values, memory)) :
    values.length = es.length := by
  induction es generalizing s values memory with
  | nil =>
    simp only [Expression.listEval, Option.some.injEq, Prod.mk.injEq] at h
    rw [← h.1]
    rfl
  | cons first others ih =>
    simp only [Expression.listEval, Option.bind_eq_bind, Option.bind_eq_some_iff, Option.pure_def,
      Option.some.injEq, Prod.mk.injEq] at h
    obtain ⟨_, -, _, hrest, rfl, -⟩ := h
    rw [List.length_cons, List.length_cons, ih hrest]

theorem Expression.computes_cases : CodeInduction scope
    (fun e p => e.callsFit → p.Computes oracle (e.eval oracle scope))
    (fun t p => t.callsFit → p.Computes oracle (t.eval oracle scope))
    (fun c p => c.callsFit → p.Computes oracle (c.eval oracle scope))
    (fun es p => listCallsFit es → p.ComputesAll oracle (listEval oracle scope es)) where
  term hp := hp
  binary {left op right p q} hp hq fits := by
    simp only [callsFit, Bool.and_eq_true] at fits
    intro s
    obtain ⟨⟨x, memory₁⟩, hx, run₁⟩ := hp fits.1 s
    obtain ⟨⟨y, memory₂⟩, hy, run₂⟩ := hq fits.2 (s.withMemory memory₁)
    have hvalue : eval oracle scope (.binary left op right) s =
        some (op.apply oracle x y memory₂) := by
      simp only [eval, hx, hy, Option.bind_eq_bind, Option.bind_some, Option.pure_def]
    refine ⟨op.apply oracle x y memory₂, hvalue, fun stack => ?_⟩
    -- the left operand lies below the right one while the right one is computed
    have hoperands := (run₁ stack).append (run₂ (x :: stack))
    exact hoperands.append (op.runs_instruction oracle x y (s.withMemory memory₂) stack)
  integer _ s := ⟨_, rfl, fun stack scratch => ⟨scratch, rfl⟩⟩
  string _ s := ⟨_, rfl, fun stack => runs_stringCode oracle _ s stack⟩
  constant _ s := ⟨_, rfl, fun stack => Constant.runs_code oracle _ s stack⟩
  read {name v} hv _ s := by
    have hvalue : Term.eval oracle scope (.variable name) s = some (v.read s, s.memory) := by
      simp only [Term.eval, hv, Option.bind_eq_bind, Option.bind_some, Option.pure_def]
    exact ⟨_, hvalue, fun stack => v.runs_push oracle s stack⟩
  element {array index v p} hv hp fits s := by
    obtain ⟨⟨i, memory⟩, hi, run⟩ := hp fits s
    have hvalue : Term.eval oracle scope (.element array index) s =
        some (memory.heap (v.read s + i), memory) := by
      simp only [Term.eval, hv, hi, Option.bind_eq_bind, Option.bind_some, Option.pure_def]
    refine ⟨_, hvalue, fun stack => ?_⟩
    have haddress := (v.runs_push oracle s stack).append (run (v.read s :: stack))
    exact haddress.append (runs_loadElement oracle (s.withMemory memory) (v.read s) i stack)
  parenthesized hp := hp
  unary {op operand p} hp fits s := by
    obtain ⟨⟨x, memory⟩, hx, run⟩ := hp fits s
    have hvalue : Term.eval oracle scope (.unary op operand) s = some (op.apply x, memory) := by
      simp only [Term.eval, hx, Option.bind_eq_bind, Option.bind_some, Option.pure_def]
    refine ⟨_, hvalue, fun stack => ?_⟩
    exact (run stack).append (op.runs_instruction oracle x (s.withMemory memory) stack)
  call hp := hp
  arguments {receiver name arguments p} hp fits := by
    simp only [Call.callsFit, Bool.and_eq_true, decide_eq_true_eq] at fits
    intro s
    obtain ⟨⟨values, memory⟩, hvalues, run⟩ := hp fits.2 s
    obtain ⟨howner, hobjects⟩ := Scope.dispatch_eq scope receiver s
    have hone := scope.length_dispatch_le receiver
    have hresult : Call.eval oracle scope (.mk receiver name arguments) s =
        some (oracle.call s!"{(scope.addressee s receiver).2}.{name}"
          ((scope.addressee s receiver).1 ++ values) memory) := by
      simp only [Call.eval, hvalues, Option.bind_eq_bind, Option.bind_some, Option.pure_def]
    refine ⟨_, hresult, fun stack => ?_⟩
    -- the count in the instruction is that of the words which the call takes off the stack
    have hcount : (UInt32.ofNat (arguments.length + (scope.dispatch receiver).1.length)).toNat =
        ((scope.addressee s receiver).1 ++ values).length := by
      rw [List.length_append, listEval_length oracle hvalues, ← hobjects, UInt32.toNat_ofNat',
        Nat.mod_eq_of_lt (by omega), Nat.add_comm]
    have hcall := runs_call oracle s!"{(scope.dispatch receiver).2}.{name}" _ hcount
      (s.withMemory memory) stack
    rw [List.reverse_append, List.append_assoc] at hcall
    rw [← howner]
    have hobject : Program.Runs oracle (scope.dispatch receiver).1 s stack s _ :=
      Scope.runs_dispatch oracle receiver s stack
    exact (hobject.append (run _)).append hcall
  nil _ s := ⟨_, rfl, fun stack => Program.Runs.refl s stack⟩
  cons {first others p q} hp hq fits := by
    simp only [listCallsFit, Bool.and_eq_true] at fits
    intro s
    obtain ⟨⟨w, memory₁⟩, hw, run₁⟩ := hp fits.1 s
    obtain ⟨⟨ws, memory₂⟩, hws, run₂⟩ := hq fits.2 (s.withMemory memory₁)
    have hvalues : listEval oracle scope (first :: others) s = some (w :: ws, memory₂) := by
      simp only [listEval, hw, hws, Option.bind_eq_bind, Option.bind_some, Option.pure_def]
    refine ⟨_, hvalues, fun stack => ?_⟩
    rw [List.reverse_cons, List.append_assoc]
    exact (run₁ stack).append (run₂ (w :: stack))

theorem Expression.code_computes (e : Expression) {p : Program} (h : e.code scope = .ok p)
    (fits : e.callsFit) : p.Computes oracle (e.eval oracle scope) :=
  (computes_cases oracle).code e h fits

theorem Call.code_computes (c : Call) {p : Program} (h : c.code scope = .ok p)
    (fits : c.callsFit) : p.Computes oracle (c.eval oracle scope) :=
  (Expression.computes_cases oracle).callCode c h fits

/-- Wherever the code of an expression stands in a program, a run that starts at its first
instruction comes to its end with the value of the expression on top of the stack. Heap and
statics are then as evaluation leaves them; arguments, locals and the object at hand are as they
were. -/
theorem Expression.code_leads_to_value (e : Expression) (fits : e.callsFit)
    (declared : ∀ name ∈ e.uses, scope.lookup name ≠ none) :
    ∃ p, e.code scope = .ok p ∧ ∀ s, ∃ value memory, e.eval oracle scope s = some (value, memory) ∧
      ∀ (before after : Program) (stack : List Word),
        (before ++ p ++ after).Leads oracle ⟨before.length, s, stack⟩
          ⟨(before ++ p).length, s.withMemory memory, value :: stack⟩ := by
  obtain ⟨p, hp⟩ := (Expression.exists_code_iff e).mpr declared
  refine ⟨p, hp, fun s => ?_⟩
  obtain ⟨⟨value, memory⟩, hvalue, runs⟩ := Expression.code_computes oracle e hp fits s
  refine ⟨value, memory, hvalue, fun before after stack => ?_⟩
  rw [List.length_append]
  exact (runs stack).leads ⟨before, after, rfl, rfl⟩

/-- Every call adds up its arguments, and it overwrites all that a call may overwrite. -/
def scrambling : Oracle where
  call := fun _ arguments memory =>
    (arguments.sum, ⟨fun a => memory.heap a + 1, fun i => memory.statics i + 1⟩)
  scratch := fun _ _ _ _ => ⟨0, fun _ => 0⟩

/-- The product `a[next(x)] * (y - "no")`, of two factors that both make calls. -/
def productOfCalls : Expression :=
  .binary
    (.term (.element "a" (.term (.call (.mk none "next" [.term (.variable "x")])))))
    .multiply
    (.parenthesized (.binary (.term (.variable "y")) .subtract (.string "no")))

/-- The scope of a method in which the local variable `x` hides a field. -/
def scopeOfProduct : Scope where
  className := "Main"
  frame := [⟨⟨"this", "Main", .argument⟩, 0⟩, ⟨⟨"a", "Array", .argument⟩, 1⟩,
    ⟨⟨"x", "int", .local⟩, 0⟩]
  outer := [[⟨⟨"x", "char", .field⟩, 0⟩, ⟨⟨"y", "int", .static⟩, 0⟩]]

theorem code_leads_to_value_productOfCalls :
    productOfCalls.callsFit ∧
      (∀ name ∈ productOfCalls.uses, scopeOfProduct.lookup name ≠ none) ∧
      ∃ p, productOfCalls.code scopeOfProduct = .ok p ∧ ∀ s, ∃ value memory,
        productOfCalls.eval scrambling scopeOfProduct s = some (value, memory) ∧
        ∀ (before after : Program) (stack : List Word),
          (before ++ p ++ after).Leads scrambling ⟨before.length, s, stack⟩
            ⟨(before ++ p).length, s.withMemory memory, value :: stack⟩ := by
  have fits : productOfCalls.callsFit := by decide
  have declared : ∀ name ∈ productOfCalls.uses, scopeOfProduct.lookup name ≠ none := by decide
  exact ⟨fits, declared,
    Expression.code_leads_to_value scrambling productOfCalls fits declared⟩

end Jack
