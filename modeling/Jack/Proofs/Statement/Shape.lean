import Jack.Proofs.Expression.Shape
import Jack.Proofs.Vm.Label
import Jack.Proofs.Vm.Run
import Jack.Statement.Code

/-! What the code of a statement looks like. One lemma for each form of statement tells the
pieces that its code is made of, and all later arguments about code go through these. The labels
in the code of statements are then found by counting. -/

namespace Jack

open Code

def Instruction.isFunction : Instruction → Bool
  | .function _ _ => true
  | _ => false

/-- Code in which no subroutine begins. -/
def Program.Inner (p : Program) : Prop := ∀ i ∈ p, i.isFunction = false

@[simp] theorem Program.inner_nil : Program.Inner [] := fun _ h => absurd h List.not_mem_nil

@[simp] theorem Program.inner_cons {i : Instruction} {p : Program} :
    Program.Inner (i :: p) ↔ i.isFunction = false ∧ p.Inner := List.forall_mem_cons

@[simp] theorem Program.inner_append {p q : Program} :
    Program.Inner (p ++ q) ↔ p.Inner ∧ q.Inner := List.forall_mem_append

theorem Program.Plain.inner {p : Program} (h : p.Plain) : p.Inner := by
  intro i hi
  have hplain := h i hi
  cases i <;> first | rfl | cases hplain

namespace Statement

variable {scope : Scope} {before : LabelCount} {p : Program}

theorem code_assign {target : String} {value : Expression}
    (h : code scope before (.let target none value) = .ok p) :
    ∃ v q, scope.lookup target = some v ∧ value.code scope = .ok q ∧ p = q ++ [v.pop] := by
  simp only [code, Scope.resolve_bind_eq_ok_iff, append_eq_ok_iff, emit_eq_ok_iff] at h
  obtain ⟨v, hv, q, _, hq, rfl, rfl⟩ := h
  exact ⟨v, q, hv, hq, rfl⟩

/-- The instructions that store a value in an array element whose address lies below it. -/
def storeElement : Program := [.pop .temp 0, .pop .pointer 1, .push .temp 0, .pop .that 0]

theorem code_assignElement {array : String} {index value : Expression}
    (h : code scope before (.let array (some index) value) = .ok p) :
    ∃ v q r, scope.lookup array = some v ∧ index.code scope = .ok q ∧ value.code scope = .ok r ∧
      p = [v.push] ++ q ++ [.arithmetic .add] ++ r ++ storeElement := by
  simp only [code, Scope.resolve_bind_eq_ok_iff, append_eq_ok_iff, emit_eq_ok_iff] at h
  obtain ⟨v, hv, _, _, ⟨_, r, ⟨_, _, ⟨_, q, rfl, hq, rfl⟩, rfl, rfl⟩, hr, rfl⟩, rfl, rfl⟩ := h
  exact ⟨v, q, r, hv, hq, hr, rfl⟩

/-- A missing `else` gives the code of an empty one. -/
theorem code_if_eq (before : LabelCount) (condition : Expression) (thenBody : List Statement)
    (elseBody : Option (List Statement)) :
    code scope before (.if condition thenBody elseBody) =
      condition.code scope ++
        emit [.arithmetic .not, .ifGoto (labelName scope.className .ifFalse before.ifs)] ++
        listCode scope (before + ⟨1, 0⟩) thenBody ++
        emit [.goto (labelName scope.className .ifEnd before.ifs),
          .label (labelName scope.className .ifFalse before.ifs)] ++
        listCode scope (before + ⟨1, 0⟩ + listLabels thenBody) (elseBody.getD []) ++
        emit [.label (labelName scope.className .ifEnd before.ifs)] := by
  cases elseBody <;> rfl

theorem code_if {condition : Expression} {thenBody : List Statement}
    {elseBody : Option (List Statement)}
    (h : code scope before (.if condition thenBody elseBody) = .ok p) :
    ∃ c t e, condition.code scope = .ok c ∧
      listCode scope (before + ⟨1, 0⟩) thenBody = .ok t ∧
      listCode scope (before + ⟨1, 0⟩ + listLabels thenBody) (elseBody.getD []) = .ok e ∧
      p = c ++ [.arithmetic .not, .ifGoto (labelName scope.className .ifFalse before.ifs)] ++ t ++
        [.goto (labelName scope.className .ifEnd before.ifs),
          .label (labelName scope.className .ifFalse before.ifs)] ++ e ++
        [.label (labelName scope.className .ifEnd before.ifs)] := by
  simp only [code_if_eq, append_eq_ok_iff, emit_eq_ok_iff] at h
  obtain ⟨_, _, ⟨_, e, ⟨_, _, ⟨_, t, ⟨c, _, hc, rfl, rfl⟩, ht, rfl⟩, rfl, rfl⟩, he, rfl⟩,
    rfl, rfl⟩ := h
  exact ⟨c, t, e, hc, ht, he, rfl⟩

theorem code_while {condition : Expression} {body : List Statement}
    (h : code scope before (.while condition body) = .ok p) :
    ∃ c b, condition.code scope = .ok c ∧ listCode scope (before + ⟨0, 1⟩) body = .ok b ∧
      p = [.label (labelName scope.className .whileStart before.whiles)] ++ c ++
        [.arithmetic .not, .ifGoto (labelName scope.className .whileEnd before.whiles)] ++ b ++
        [.goto (labelName scope.className .whileStart before.whiles),
          .label (labelName scope.className .whileEnd before.whiles)] := by
  simp only [code, append_eq_ok_iff, emit_eq_ok_iff] at h
  obtain ⟨_, _, ⟨_, b, ⟨_, _, ⟨_, c, rfl, hc, rfl⟩, rfl, rfl⟩, hb, rfl⟩, rfl, rfl⟩ := h
  exact ⟨c, b, hc, hb, rfl⟩

theorem code_do {target : Call} (h : code scope before (.do target) = .ok p) :
    ∃ q, target.code scope = .ok q ∧ p = q ++ [.pop .temp 0] := by
  simp only [code, append_eq_ok_iff, emit_eq_ok_iff] at h
  obtain ⟨q, _, hq, rfl, rfl⟩ := h
  exact ⟨q, hq, rfl⟩

theorem code_return_none (h : code scope before (.return none) = .ok p) :
    p = [.push .constant 0, .return] := by
  rw [code, emit_eq_ok_iff] at h
  exact h.symm

theorem code_return_some {value : Expression}
    (h : code scope before (.return (some value)) = .ok p) :
    ∃ q, value.code scope = .ok q ∧ p = q ++ [.return] := by
  simp only [code, append_eq_ok_iff, emit_eq_ok_iff] at h
  obtain ⟨q, _, hq, rfl, rfl⟩ := h
  exact ⟨q, hq, rfl⟩

theorem listCode_nil (h : listCode scope before [] = .ok p) : p = [] := by
  rw [listCode, emit_eq_ok_iff] at h
  exact h.symm

theorem listCode_cons {first : Statement} {others : List Statement}
    (h : listCode scope before (first :: others) = .ok p) :
    ∃ q r, first.code scope before = .ok q ∧
      listCode scope (before + first.labels) others = .ok r ∧ p = q ++ r := by
  rw [listCode, append_eq_ok_iff] at h
  obtain ⟨q, r, hq, hr, rfl⟩ := h
  exact ⟨q, r, hq, hr, rfl⟩

theorem labels_if (condition : Expression) (thenBody : List Statement)
    (elseBody : Option (List Statement)) :
    labels (.if condition thenBody elseBody) =
      ⟨1, 0⟩ + listLabels thenBody + listLabels (elseBody.getD []) := by
  cases elseBody <;> rfl

theorem sizeOf_else_lt (condition : Expression) (thenBody : List Statement)
    (elseBody : Option (List Statement)) :
    sizeOf (elseBody.getD []) < sizeOf (Statement.if condition thenBody elseBody) := by
  cases elseBody <;> simp only [Option.getD_none, Option.getD_some, List.nil.sizeOf_spec,
    Statement.if.sizeOf_spec, Option.some.sizeOf_spec, Option.none.sizeOf_spec] <;> omega

/-- What is to be shown of the code of each form of statement, given that it holds of the code
of the parts, so that it holds of the code of all statements. -/
structure CodeInduction (scope : Scope) (P : Statement → LabelCount → Program → Prop)
    (Q : List Statement → LabelCount → Program → Prop) : Prop where
  assign : ∀ {before target value v q}, scope.lookup target = some v →
    value.code scope = .ok q → P (.let target none value) before (q ++ [v.pop])
  assignElement : ∀ {before array index value v q r}, scope.lookup array = some v →
    index.code scope = .ok q → value.code scope = .ok r →
    P (.let array (some index) value) before
      ([v.push] ++ q ++ [.arithmetic .add] ++ r ++ storeElement)
  conditional : ∀ {before condition thenBody elseBody c t e}, condition.code scope = .ok c →
    listCode scope (before + ⟨1, 0⟩) thenBody = .ok t → Q thenBody (before + ⟨1, 0⟩) t →
    Q (elseBody.getD []) (before + ⟨1, 0⟩ + listLabels thenBody) e →
    P (.if condition thenBody elseBody) before
      (c ++ [.arithmetic .not, .ifGoto (labelName scope.className .ifFalse before.ifs)] ++ t ++
        [.goto (labelName scope.className .ifEnd before.ifs),
          .label (labelName scope.className .ifFalse before.ifs)] ++ e ++
        [.label (labelName scope.className .ifEnd before.ifs)])
  loop : ∀ {before condition body c b}, condition.code scope = .ok c →
    Q body (before + ⟨0, 1⟩) b →
    P (.while condition body) before
      ([.label (labelName scope.className .whileStart before.whiles)] ++ c ++
        [.arithmetic .not, .ifGoto (labelName scope.className .whileEnd before.whiles)] ++ b ++
        [.goto (labelName scope.className .whileStart before.whiles),
          .label (labelName scope.className .whileEnd before.whiles)])
  call : ∀ {before target q}, target.code scope = .ok q →
    P (.do target) before (q ++ [.pop .temp 0])
  returnNone : ∀ {before}, P (.return none) before [.push .constant 0, .return]
  returnSome : ∀ {before value q}, value.code scope = .ok q →
    P (.return (some value)) before (q ++ [.return])
  nil : ∀ {before}, Q [] before []
  cons : ∀ {before first others q r}, code scope before first = .ok q → P first before q →
    Q others (before + first.labels) r → Q (first :: others) before (q ++ r)

namespace CodeInduction

variable {P : Statement → LabelCount → Program → Prop}
  {Q : List Statement → LabelCount → Program → Prop}

mutual

theorem code (cases : CodeInduction scope P Q) (s : Statement) {before : LabelCount} {p : Program}
    (h : s.code scope before = .ok p) : P s before p := by
  cases s with
  | «let» target index value =>
    cases index with
    | none =>
      obtain ⟨v, q, hv, hq, rfl⟩ := code_assign h
      exact cases.assign hv hq
    | some index =>
      obtain ⟨v, q, r, hv, hq, hr, rfl⟩ := code_assignElement h
      exact cases.assignElement hv hq hr
  | «if» condition thenBody elseBody =>
    obtain ⟨c, t, e, hc, ht, he, rfl⟩ := code_if h
    have hsmall := sizeOf_else_lt condition thenBody elseBody
    exact cases.conditional hc ht (listCode cases thenBody ht)
      (listCode cases (elseBody.getD []) he)
  | «while» condition body =>
    obtain ⟨c, b, hc, hb, rfl⟩ := code_while h
    exact cases.loop hc (listCode cases body hb)
  | «do» target =>
    obtain ⟨q, hq, rfl⟩ := code_do h
    exact cases.call hq
  | «return» value =>
    cases value with
    | none =>
      rw [code_return_none h]
      exact cases.returnNone
    | some value =>
      obtain ⟨q, hq, rfl⟩ := code_return_some h
      exact cases.returnSome hq
termination_by sizeOf s

theorem listCode (cases : CodeInduction scope P Q) (ss : List Statement) {before : LabelCount}
    {p : Program} (h : listCode scope before ss = .ok p) : Q ss before p := by
  cases ss with
  | nil =>
    rw [listCode_nil h]
    exact cases.nil
  | cons first others =>
    obtain ⟨q, r, hq, hr, rfl⟩ := listCode_cons h
    exact cases.cons hq (code cases first hq) (listCode cases others hr)
termination_by sizeOf ss

end

end CodeInduction

theorem labels_eq_nil_of_plain {p : Program} (h : p.Plain) : p.labels = [] := by
  unfold Program.labels
  rw [List.filterMap_eq_nil_iff]
  intro i hi
  have hplain := h i hi
  cases i <;> simp_all [Instruction.isPlain, Instruction.label?]

/-- The labels in the code of a statement are those of the conditionals and loops in it. -/
theorem count_labels_cases (name : String) : CodeInduction scope
    (fun s before p =>
      p.labels.count name = (LabelCount.names scope.className before s.labels).count name)
    (fun ss before p => p.labels.count name =
      (LabelCount.names scope.className before (listLabels ss)).count name) where
  assign _ hq := by
    rw [Program.labels_append, labels_eq_nil_of_plain (Expression.plain_code _ hq)]
    rfl
  assignElement _ hq hr := by
    simp only [Program.labels_append, labels_eq_nil_of_plain (Expression.plain_code _ hq),
      labels_eq_nil_of_plain (Expression.plain_code _ hr)]
    rfl
  conditional hc _ ht he := by
    have hplain := labels_eq_nil_of_plain (Expression.plain_code _ hc)
    -- the labels of the conditional stand between and behind those of its parts, so the two
    -- lists have the same names in different orders
    rw [labels_if, LabelCount.count_names_add, LabelCount.count_names_add,
      LabelCount.count_names_if]
    simp only [Program.labels_append, List.count_append, hplain, ht, he]
    simp only [Program.labels, List.filterMap_cons, List.filterMap_nil, Instruction.label?,
      List.count_nil, ← LabelCount.add_assoc]
    omega
  loop hc hb := by
    have hplain := labels_eq_nil_of_plain (Expression.plain_code _ hc)
    rw [labels, LabelCount.count_names_add, LabelCount.count_names_while]
    simp only [Program.labels_append, List.count_append, hplain, hb]
    simp only [Program.labels, List.filterMap_cons, List.filterMap_nil, Instruction.label?,
      List.count_nil]
    omega
  call hq := by
    rw [Program.labels_append, labels_eq_nil_of_plain (Call.plain_code _ hq)]
    rfl
  returnNone := rfl
  returnSome hq := by
    rw [Program.labels_append, labels_eq_nil_of_plain (Expression.plain_code _ hq)]
    rfl
  nil := rfl
  cons _ hfirst hothers := by
    rw [Program.labels_append, List.count_append, hfirst, hothers, listLabels,
      LabelCount.count_names_add]

theorem count_labels_listCode (ss : List Statement) {before : LabelCount} {p : Program}
    (h : listCode scope before ss = .ok p) (name : String) :
    p.labels.count name =
      (LabelCount.names scope.className before (listLabels ss)).count name :=
  (count_labels_cases name).listCode ss h

theorem nodup_labels_listCode {ss : List Statement}
    (h : listCode scope before ss = .ok p) (hifs : (before + listLabels ss).ifs ≤ 2 ^ 32)
    (hwhiles : (before + listLabels ss).whiles ≤ 2 ^ 32) : p.labels.Nodup := by
  rw [List.nodup_iff_count_le_one]
  intro name
  rw [count_labels_listCode ss h name]
  exact List.nodup_iff_count_le_one.mp (LabelCount.nodup_names _ hifs hwhiles) name

theorem inner_cases :
    CodeInduction scope (fun _ _ p => p.Inner) (fun _ _ p => p.Inner) where
  assign _ hq := by
    simp [(Expression.plain_code _ hq).inner, Variable.pop, Instruction.isFunction]
  assignElement _ hq hr := by
    simp [(Expression.plain_code _ hq).inner, (Expression.plain_code _ hr).inner, storeElement,
      Variable.push, Instruction.isFunction]
  conditional hc _ ht he := by
    simp [(Expression.plain_code _ hc).inner, ht, he, Instruction.isFunction]
  loop hc hb := by simp [(Expression.plain_code _ hc).inner, hb, Instruction.isFunction]
  call hq := by simp [(Call.plain_code _ hq).inner, Instruction.isFunction]
  returnNone := by simp [Instruction.isFunction]
  returnSome hq := by simp [(Expression.plain_code _ hq).inner, Instruction.isFunction]
  nil := Program.inner_nil
  cons _ hfirst hothers := Program.inner_append.mpr ⟨hfirst, hothers⟩

theorem inner_listCode (ss : List Statement) {before : LabelCount} {p : Program}
    (h : listCode scope before ss = .ok p) : p.Inner := inner_cases.listCode ss h

end Statement

end Jack
