import Jack.Proofs.Statement.Shape
import Jack.Proofs.Vm.Numbering

/-! Code of statements behind others. What comes before a statement moves the numbers of its labels
on, those of the statements inside it as well, and does nothing else to its code. -/

namespace Jack

open Code

section

variable {scope : Scope} {className : String} {shift : LabelCount}

theorem Expression.renumbered_code (e : Expression) :
    Code.renumbered className shift (e.code scope) = e.code scope :=
  renumbered_of_plain fun _ h => e.plain_code h

theorem Call.renumbered_code (c : Call) :
    Code.renumbered className shift (c.code scope) = c.code scope :=
  renumbered_of_plain fun _ h => c.plain_code h

theorem Scope.renumbered_resolve_bind (name : String) (f : Variable → Code) :
    Code.renumbered className shift (scope.resolve name >>= f) =
      scope.resolve name >>= fun v => (f v).renumbered className shift := by
  cases scope.resolve name <;> rfl

end

namespace Statement

variable {scope : Scope} {shift : LabelCount}

mutual

theorem code_renumbered (s : Statement) (before : LabelCount)
    (fits : (shift + before + s.labels).Fits) :
    s.code scope (shift + before) =
      Code.renumbered scope.className shift (s.code scope before) := by
  cases s with
  | «let» target index value =>
    cases index with
    | none =>
      rw [code, code, Scope.renumbered_resolve_bind]
      simp only [renumbered_append, value.renumbered_code]
      rfl
    | some index =>
      rw [code, code, Scope.renumbered_resolve_bind]
      simp only [renumbered_append, index.renumbered_code, value.renumbered_code]
      rfl
  | «if» condition thenBody elseBody =>
    have hsmall := sizeOf_else_lt condition thenBody elseBody
    have hinside : shift + before + ⟨1, 0⟩ = shift + (before + ⟨1, 0⟩) := LabelCount.add_assoc ..
    have hbehind : shift + (before + ⟨1, 0⟩) + listLabels thenBody =
        shift + (before + ⟨1, 0⟩ + listLabels thenBody) := LabelCount.add_assoc ..
    -- the label count of the conditional, summed up in the order of its code
    rw [labels_if, ← LabelCount.add_assoc, ← LabelCount.add_assoc, hinside, hbehind] at fits
    have hthen := fits.left
    rw [← hbehind] at hthen
    have hnumber : (shift + before).ifs < 2 ^ 32 := hthen.left.ifs
    have hfalse : renumberedName scope.className shift
        (labelName scope.className .ifFalse before.ifs) =
        labelName scope.className .ifFalse (shift + before).ifs :=
      renumberedName_labelName _ hnumber
    have hend : renumberedName scope.className shift
        (labelName scope.className .ifEnd before.ifs) =
        labelName scope.className .ifEnd (shift + before).ifs :=
      renumberedName_labelName _ hnumber
    rw [code_if_eq, code_if_eq, hinside, hbehind, listCode_renumbered thenBody _ hthen,
      listCode_renumbered (elseBody.getD []) _ fits, ← hfalse, ← hend]
    simp only [renumbered_append, condition.renumbered_code]
    rfl
  | «while» condition body =>
    have hinside : shift + before + ⟨0, 1⟩ = shift + (before + ⟨0, 1⟩) := LabelCount.add_assoc ..
    rw [labels, ← LabelCount.add_assoc, hinside] at fits
    have hnumber : (shift + before).whiles < 2 ^ 32 := fits.left.whiles
    have hstart : renumberedName scope.className shift
        (labelName scope.className .whileStart before.whiles) =
        labelName scope.className .whileStart (shift + before).whiles :=
      renumberedName_labelName _ hnumber
    have hend : renumberedName scope.className shift
        (labelName scope.className .whileEnd before.whiles) =
        labelName scope.className .whileEnd (shift + before).whiles :=
      renumberedName_labelName _ hnumber
    rw [code, code, hinside, listCode_renumbered body _ fits, ← hstart, ← hend]
    simp only [renumbered_append, condition.renumbered_code]
    rfl
  | «do» target =>
    rw [code, code, renumbered_append, target.renumbered_code]
    rfl
  | «return» value =>
    cases value with
    | none => rfl
    | some value =>
      rw [code, code, renumbered_append, value.renumbered_code]
      rfl
termination_by sizeOf s

theorem listCode_renumbered (ss : List Statement) (before : LabelCount)
    (fits : (shift + before + listLabels ss).Fits) :
    listCode scope (shift + before) ss =
      Code.renumbered scope.className shift (listCode scope before ss) := by
  cases ss with
  | nil => rfl
  | cons first others =>
    have hbehind : shift + before + first.labels = shift + (before + first.labels) :=
      LabelCount.add_assoc ..
    rw [listLabels, ← LabelCount.add_assoc] at fits
    have hfirst := fits.left
    rw [hbehind] at fits
    rw [listCode, listCode, renumbered_append, code_renumbered first before hfirst, hbehind,
      listCode_renumbered others _ fits]
termination_by sizeOf ss

end

end Statement

end Jack
