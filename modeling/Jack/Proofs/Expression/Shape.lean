import Jack.Proofs.Expression.Evaluation
import Jack.Proofs.Scope
import Jack.Expression.Code

/-! What the code of an expression looks like, whatever it computes: it exists exactly if every
name that the expression uses is declared, and it holds no label, no jump and no return. -/

namespace Jack

open Code Occurrence

variable {scope : Scope}

theorem Code.emit_eq_ok_iff {p q : Program} : emit p = .ok q ↔ p = q := by
  simp [emit]

theorem Scope.resolve_bind_eq_ok_iff {name : String} {f : Variable → Code} {p : Program} :
    (scope.resolve name >>= f) = .ok p ↔ ∃ v, scope.lookup name = some v ∧ f v = .ok p := by
  unfold Scope.resolve
  cases scope.lookup name <;> simp [bind, Except.bind]

/-! The code of an expression fails at the first name in the text that is not declared. -/

mutual

theorem Expression.fault?_code (e : Expression) :
    fault? (e.code scope) = firstFault (ofUses scope.known e.uses) := by
  cases e with
  | term value => exact Term.fault?_code value
  | binary left op right =>
    rw [Expression.code, Expression.uses, ofUses_append, firstFault_append, fault?_append,
      fault?_append, Expression.fault?_code left, Term.fault?_code right]
    exact Option.or_none

theorem Term.fault?_code (t : Term) :
    fault? (t.code scope) = firstFault (ofUses scope.known t.uses) := by
  cases t with
  | integer value => rfl
  | string text => rfl
  | constant value => rfl
  | «variable» name =>
    rw [Term.code, Term.uses, ofUses_cons, ofUses_nil]
    exact Scope.fault?_resolve_bind fun _ => rfl
  | element array index =>
    refine Scope.fault?_resolve_bind fun v => ?_
    rw [fault?_append, fault?_append, Expression.fault?_code index]
    exact Option.or_none
  | parenthesized inner => exact Expression.fault?_code inner
  | unary op operand =>
    rw [Term.code, Term.uses, fault?_append, Term.fault?_code operand]
    exact Option.or_none
  | call target => exact Call.fault?_code target

theorem Call.fault?_code (c : Call) :
    fault? (c.code scope) = firstFault (ofUses scope.known c.uses) := by
  obtain ⟨receiver, name, arguments⟩ := c
  rw [Call.code, Call.uses, fault?_append, fault?_append, Expression.fault?_listCode arguments]
  exact Option.or_none

theorem Expression.fault?_listCode (es : List Expression) :
    fault? (Expression.listCode scope es) =
      firstFault (ofUses scope.known (Expression.listUses es)) := by
  cases es with
  | nil => rfl
  | cons first others =>
    rw [Expression.listCode, Expression.listUses, ofUses_append, firstFault_append, fault?_append,
      Expression.fault?_code first, Expression.fault?_listCode others]

end

theorem Expression.exists_code_iff (e : Expression) :
    (∃ p, e.code scope = .ok p) ↔ ∀ name ∈ e.uses, scope.lookup name ≠ none := by
  rw [← fault?_eq_none_iff, e.fault?_code, firstFault_eq_none_iff]
  simp [ofUses, Offends, Scope.lookup_eq_none_iff]

/-- What is to be shown of the code of each form of expression, given that it holds of the code
of the parts, so that it holds of the code of all expressions, terms, calls and argument lists. -/
structure Expression.CodeInduction (scope : Scope) (P : Expression → Program → Prop)
    (T : Term → Program → Prop) (C : Call → Program → Prop)
    (L : List Expression → Program → Prop) : Prop where
  term : ∀ {t p}, T t p → P (.term t) p
  binary : ∀ {left op right p q}, P left p → T right q →
    P (.binary left op right) (p ++ q ++ [op.instruction])
  integer : ∀ {value}, T (.integer value) [.push .constant value]
  string : ∀ {text}, T (.string text) (stringCode text)
  constant : ∀ {value}, T (.constant value) value.code
  read : ∀ {name v}, scope.lookup name = some v → T (.variable name) [v.push]
  element : ∀ {array index v p}, scope.lookup array = some v → P index p →
    T (.element array index)
      ([v.push] ++ p ++ [.arithmetic .add, .pop .pointer 1, .push .that 0])
  parenthesized : ∀ {inner p}, P inner p → T (.parenthesized inner) p
  unary : ∀ {op operand p}, T operand p → T (.unary op operand) (p ++ [op.instruction])
  call : ∀ {target p}, C target p → T (.call target) p
  arguments : ∀ {receiver name es p}, L es p → C (.mk receiver name es)
    ((scope.dispatch receiver).1 ++ p ++ [.call s!"{(scope.dispatch receiver).2}.{name}"
      (UInt32.ofNat (es.length + (scope.dispatch receiver).1.length))])
  nil : L [] []
  cons : ∀ {first others p q}, P first p → L others q → L (first :: others) (p ++ q)

namespace Expression.CodeInduction

variable {P : Expression → Program → Prop} {T : Term → Program → Prop} {C : Call → Program → Prop}
  {L : List Expression → Program → Prop}

mutual

theorem code (cases : CodeInduction scope P T C L) (e : Expression) {p : Program}
    (h : e.code scope = .ok p) : P e p := by
  cases e with
  | term value => exact cases.term (termCode cases value h)
  | binary left op right =>
    simp only [Expression.code, append_eq_ok_iff, emit_eq_ok_iff] at h
    obtain ⟨_, _, ⟨p₁, p₂, h₁, h₂, rfl⟩, rfl, rfl⟩ := h
    exact cases.binary (code cases left h₁) (termCode cases right h₂)

theorem termCode (cases : CodeInduction scope P T C L) (t : Term) {p : Program}
    (h : t.code scope = .ok p) : T t p := by
  cases t with
  | integer value =>
    rw [Term.code, emit_eq_ok_iff] at h
    exact h ▸ cases.integer
  | string text =>
    rw [Term.code, emit_eq_ok_iff] at h
    exact h ▸ cases.string
  | constant value =>
    rw [Term.code, emit_eq_ok_iff] at h
    exact h ▸ cases.constant
  | «variable» name =>
    simp only [Term.code, Scope.resolve_bind_eq_ok_iff, emit_eq_ok_iff] at h
    obtain ⟨v, hv, rfl⟩ := h
    exact cases.read hv
  | element array index =>
    simp only [Term.code, Scope.resolve_bind_eq_ok_iff, append_eq_ok_iff, emit_eq_ok_iff] at h
    obtain ⟨v, hv, _, _, ⟨_, p₁, rfl, h₁, rfl⟩, rfl, rfl⟩ := h
    exact cases.element hv (code cases index h₁)
  | parenthesized inner => exact cases.parenthesized (code cases inner h)
  | unary op operand =>
    simp only [Term.code, append_eq_ok_iff, emit_eq_ok_iff] at h
    obtain ⟨p₁, _, h₁, rfl, rfl⟩ := h
    exact cases.unary (termCode cases operand h₁)
  | call target => exact cases.call (callCode cases target h)

theorem callCode (cases : CodeInduction scope P T C L) (c : Call) {p : Program}
    (h : c.code scope = .ok p) : C c p := by
  obtain ⟨receiver, name, arguments⟩ := c
  simp only [Call.code, append_eq_ok_iff, emit_eq_ok_iff] at h
  obtain ⟨_, _, ⟨_, p₁, rfl, h₁, rfl⟩, rfl, rfl⟩ := h
  exact cases.arguments (listCode cases arguments h₁)

theorem listCode (cases : CodeInduction scope P T C L) (es : List Expression) {p : Program}
    (h : Expression.listCode scope es = .ok p) : L es p := by
  cases es with
  | nil =>
    rw [Expression.listCode, emit_eq_ok_iff] at h
    exact h ▸ cases.nil
  | cons first others =>
    simp only [Expression.listCode, append_eq_ok_iff] at h
    obtain ⟨p₁, p₂, h₁, h₂, rfl⟩ := h
    exact cases.cons (code cases first h₁) (listCode cases others h₂)

end

end Expression.CodeInduction

/-- Neither a label nor anything that a run does not simply go past. -/
def Instruction.isPlain : Instruction → Bool
  | .push _ _ | .pop _ _ | .arithmetic _ | .call _ _ => true
  | .label _ | .goto _ | .ifGoto _ | .function _ _ | .return => false

def Program.Plain (p : Program) : Prop := ∀ i ∈ p, i.isPlain

@[simp] theorem Program.plain_nil : Program.Plain [] := fun _ h => absurd h List.not_mem_nil

@[simp] theorem Program.plain_cons {i : Instruction} {p : Program} :
    Program.Plain (i :: p) ↔ i.isPlain ∧ p.Plain := List.forall_mem_cons

theorem Program.Plain.append {p q : Program} (hp : p.Plain) (hq : q.Plain) : (p ++ q).Plain :=
  List.forall_mem_append.mpr ⟨hp, hq⟩

theorem BinaryOp.isPlain_instruction (op : BinaryOp) : op.instruction.isPlain := by
  cases op <;> rfl

theorem UnaryOp.isPlain_instruction (op : UnaryOp) : op.instruction.isPlain := by
  cases op <;> rfl

theorem Constant.plain_code (c : Constant) : c.code.Plain := by
  cases c <;> simp [Constant.code, Instruction.isPlain]

theorem plain_stringCode (text : String) : (stringCode text).Plain := by
  refine Program.Plain.append (by simp [Instruction.isPlain]) ?_
  intro i hi
  obtain ⟨c, -, hc⟩ := List.mem_flatMap.mp hi
  have hplain : Program.Plain [.push .constant c.val, .call "String.appendChar" 2] := by
    simp [Instruction.isPlain]
  exact hplain i hc

theorem Scope.plain_dispatch (receiver : Option String) : (scope.dispatch receiver).1.Plain := by
  unfold Scope.dispatch
  cases receiver with
  | none => simp [Instruction.isPlain]
  | some name =>
    cases hv : scope.lookup name <;> simp [hv, Instruction.isPlain, Variable.push]

theorem Scope.length_dispatch_le (scope : Scope) (receiver : Option String) :
    (scope.dispatch receiver).1.length ≤ 1 := by
  unfold Scope.dispatch
  cases receiver with
  | none => exact Nat.le_refl 1
  | some name => cases hv : scope.lookup name <;> simp [hv]

theorem Expression.plain_cases : Expression.CodeInduction scope
    (fun _ p => p.Plain) (fun _ p => p.Plain) (fun _ p => p.Plain) (fun _ p => p.Plain) where
  term hp := hp
  binary {_ op _ _ _} hp hq := (hp.append hq).append (by simp [op.isPlain_instruction])
  integer := by simp [Instruction.isPlain]
  string := plain_stringCode _
  constant := Constant.plain_code _
  read _ := by simp [Instruction.isPlain, Variable.push]
  element _ hp := by
    refine Program.Plain.append (Program.Plain.append ?_ hp) ?_
    · simp [Instruction.isPlain, Variable.push]
    · simp [Instruction.isPlain]
  parenthesized hp := hp
  unary {op _ _} hp := hp.append (by simp [op.isPlain_instruction])
  call hp := hp
  arguments hp :=
    ((Scope.plain_dispatch _).append hp).append (by simp [Instruction.isPlain])
  nil := Program.plain_nil
  cons hp hq := hp.append hq

theorem Expression.plain_code (e : Expression) {p : Program} (h : e.code scope = .ok p) :
    p.Plain := plain_cases.code e h

theorem Call.plain_code (c : Call) {p : Program} (h : c.code scope = .ok p) : p.Plain :=
  Expression.plain_cases.callCode c h

end Jack
