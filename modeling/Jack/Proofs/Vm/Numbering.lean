import Jack.Proofs.Expression.Shape
import Jack.Proofs.Vm.Label

/-! Numbers of labels moved on. A name tells whether it is that of a label, of which kind and with
which number, so the labels of a program can be given later numbers. Code without labels and jumps
stays as it is. -/

namespace Jack

/-- The number that a text writes in decimal digits, without a zero in front. -/
def numberOfText? (digits : String) : Option Nat :=
  digits.toNat?.filter fun n => toString n = digits

theorem numberOfText?_eq_some_iff {digits : String} {n : Nat} :
    numberOfText? digits = some n ↔ toString n = digits := by
  rw [numberOfText?, Option.filter_eq_some_iff, decide_eq_true_eq]
  constructor
  · exact And.right
  · rintro rfl
    have hread : (toString n).toNat? = some n := Nat.toNat?_repr n
    exact ⟨hread, rfl⟩

namespace LabelKind

def all : List LabelKind := [ifFalse, ifEnd, whileStart, whileEnd]

theorem mem_all (kind : LabelKind) : kind ∈ all := by cases kind <;> decide

/-- The number of a label of this kind, if the name is that of one. -/
def numberOf? (className name : String) (kind : LabelKind) : Option Nat := do
  let digits ← name.toList.dropPrefix? s!"{className}.{kind.text}$".toList
  numberOfText? (String.ofList digits)

theorem numberOf?_eq_some_iff {className name : String} {kind : LabelKind} {n : Nat} :
    kind.numberOf? className name = some n ↔ name = s!"{className}.{kind.text}${n}" := by
  have htext : s!"{className}.{kind.text}${n}".toList =
      s!"{className}.{kind.text}$".toList ++ (toString n).toList := String.toList_append
  simp only [numberOf?, Option.bind_eq_bind, Option.bind_eq_some_iff,
    List.dropPrefix?_eq_some_iff, numberOfText?_eq_some_iff]
  constructor
  · rintro ⟨digits, ⟨front, hname, hfront⟩, hdigits⟩
    rw [eq_of_beq hfront, ← String.toList_ofList (l := digits), ← hdigits, ← htext] at hname
    exact String.toList_injective hname
  · rintro rfl
    exact ⟨_, ⟨_, htext, beq_self_eq_true _⟩, String.ofList_toList.symm⟩

end LabelKind

/-- The kind and the number of a label of the class, if the name is that of one. -/
def labelOf? (className name : String) : Option (LabelKind × Nat) :=
  LabelKind.all.findSome? fun kind => (kind.numberOf? className name).map fun n => (kind, n)

theorem labelOf?_eq_some_iff {className name : String} {kind : LabelKind} {n : Nat} :
    labelOf? className name = some (kind, n) ↔ name = s!"{className}.{kind.text}${n}" := by
  have hread {kind : LabelKind} {n : Nat} (h : labelOf? className name = some (kind, n)) :
      name = s!"{className}.{kind.text}${n}" := by
    obtain ⟨kind', -, hkind⟩ := List.exists_of_findSome?_eq_some h
    obtain ⟨n', hn, heq⟩ := Option.map_eq_some_iff.mp hkind
    obtain ⟨rfl, rfl⟩ := Prod.mk.inj heq
    exact LabelKind.numberOf?_eq_some_iff.mp hn
  refine ⟨hread, fun hname => ?_⟩
  have hfound : (labelOf? className name).isSome := by
    rw [labelOf?, List.findSome?_isSome_iff]
    refine ⟨kind, kind.mem_all, ?_⟩
    rw [LabelKind.numberOf?_eq_some_iff.mpr hname]
    rfl
  obtain ⟨⟨kind', n'⟩, hlabel⟩ := Option.isSome_iff_exists.mp hfound
  -- whichever label was found first, its name is this one, so it is the same label
  obtain ⟨rfl, rfl⟩ := labelText_injective (hname.symm.trans (hread hlabel))
  exact hlabel

namespace LabelCount

/-- How many labels of a kind there are. -/
def of (count : LabelCount) : LabelKind → Nat
  | .ifFalse | .ifEnd => count.ifs
  | .whileStart | .whileEnd => count.whiles

theorem of_add (a b : LabelCount) (kind : LabelKind) : (a + b).of kind = a.of kind + b.of kind := by
  cases kind <;> rfl

/-- The numbers of this many labels are words. -/
structure Fits (count : LabelCount) : Prop where
  ifs : count.ifs ≤ 2 ^ 32
  whiles : count.whiles ≤ 2 ^ 32

theorem Fits.left {a b : LabelCount} (h : (a + b).Fits) : a.Fits :=
  ⟨(Nat.le_add_right _ _).trans h.ifs, (Nat.le_add_right _ _).trans h.whiles⟩

end LabelCount

/-- The name of the label with a number larger by as much as `shift` counts of its kind. A name that
is none of a label stays what it is. -/
def renumberedName (className : String) (shift : LabelCount) (name : String) : String :=
  match labelOf? className name with
  | some (kind, n) => s!"{className}.{kind.text}${shift.of kind + n}"
  | none => name

theorem renumberedName_labelName (className : String) {kind : LabelKind}
    {shift before : LabelCount} (h : (shift + before).of kind < 2 ^ 32) :
    renumberedName className shift (labelName className kind (before.of kind)) =
      labelName className kind ((shift + before).of kind) := by
  rw [LabelCount.of_add] at h ⊢
  have hname := labelName_eq className kind ((Nat.le_add_left _ _).trans_lt h)
  rw [renumberedName, labelOf?_eq_some_iff.mpr hname, labelName_eq className kind h]

def Instruction.renumbered (className : String) (shift : LabelCount) : Instruction → Instruction
  | label name => .label (renumberedName className shift name)
  | goto target => .goto (renumberedName className shift target)
  | ifGoto target => .ifGoto (renumberedName className shift target)
  | i => i

def Program.renumbered (className : String) (shift : LabelCount) (p : Program) : Program :=
  p.map (Instruction.renumbered className shift)

def Code.renumbered (className : String) (shift : LabelCount) (code : Code) : Code :=
  code.map (Program.renumbered className shift)

section

variable {className : String} {shift : LabelCount}

theorem Program.Plain.renumbered_eq {p : Program} (h : p.Plain) :
    p.renumbered className shift = p := by
  have hsame : ∀ i ∈ p, i.renumbered className shift = id i := by
    intro i hi
    have hplain := h i hi
    cases i <;> first | rfl | cases hplain
  rw [Program.renumbered, List.map_congr_left hsame, List.map_id]

theorem Code.renumbered_append (first second : Code) :
    (first ++ second).renumbered className shift =
      first.renumbered className shift ++ second.renumbered className shift := by
  cases first with
  | error e => rfl
  | ok p =>
    cases second with
    | error e => rfl
    | ok q => exact congrArg Except.ok List.map_append

theorem Code.renumbered_eq_ok_iff {code : Code} {p : Program} :
    code.renumbered className shift = .ok p ↔
      ∃ q, code = .ok q ∧ p = q.renumbered className shift := by
  cases code with
  | error e => simp [Code.renumbered, Except.map]
  | ok q => simp [Code.renumbered, Except.map, eq_comm]

theorem Code.fault?_renumbered (code : Code) :
    fault? (code.renumbered className shift) = fault? code := by
  cases code <;> rfl

theorem Code.renumbered_of_plain {code : Code} (h : ∀ p, code = .ok p → p.Plain) :
    code.renumbered className shift = code := by
  cases code with
  | error e => rfl
  | ok p => exact congrArg Except.ok (h p rfl).renumbered_eq

end

end Jack
