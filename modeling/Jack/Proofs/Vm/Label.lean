import Mathlib.Algebra.Group.Nat.Defs
import Mathlib.Data.List.Nodup
import Mathlib.Data.List.Range
import Std.Data.String.ToNat
import Jack.Vm.Label

/-! Names of labels. A name tells its kind and, up to the size of a word, its number, so the
names that belong to a stretch of numbers are all different. -/

namespace Jack

theorem toString_word_injective {m n : UInt32} (h : toString m = toString n) : m = n :=
  UInt32.toNat_inj.mp (Nat.repr_injective h)

theorem LabelKind.text_append_injective {k k' : LabelKind} {digits digits' : List Char}
    (h : k.text.toList ++ '$' :: digits = k'.text.toList ++ '$' :: digits') :
    k = k' ∧ digits = digits' := by
  cases k <;> cases k' <;> simp_all [LabelKind.text]

theorem labelText_injective {className : String} {k other : LabelKind} {m n : Nat}
    (h : s!"{className}.{k.text}${m}" = s!"{className}.{other.text}${n}") : k = other ∧ m = n := by
  -- the kind ends at the dollar sign, which is in no text of a kind
  have hchars := congrArg String.toList h
  simp only [toString, String.toList_append, List.append_assoc,
    List.append_cancel_left_eq] at hchars
  obtain ⟨hkind, hdigits⟩ := LabelKind.text_append_injective hchars
  exact ⟨hkind, Nat.repr_injective (String.toList_injective hdigits)⟩

/-- The number of a label stands in its name as it is, up to the size of a word. -/
theorem labelName_eq (className : String) (kind : LabelKind) {number : Nat}
    (h : number < 2 ^ 32) :
    labelName className kind number = s!"{className}.{kind.text}${number}" := by
  have hword : toString (UInt32.ofNat number) = toString number := by
    show Nat.repr (UInt32.ofNat number).toNat = Nat.repr number
    rw [UInt32.toNat_ofNat', Nat.mod_eq_of_lt h]
  rw [labelName, hword]

theorem labelName_injective {className : String} {k k' : LabelKind} {m n : Nat}
    (hm : m < 2 ^ 32) (hn : n < 2 ^ 32) (h : labelName className k m = labelName className k' n) :
    k = k' ∧ m = n := by
  rw [labelName_eq className k hm, labelName_eq className k' hn] at h
  exact labelText_injective h

/-- The labels of one kind with the `n` numbers from `start` on. -/
def numbered (className : String) (kind : LabelKind) (start n : Nat) : List String :=
  (List.range' start n).map (labelName className kind)

theorem nodup_numbered (className : String) (kind : LabelKind) {start n : Nat}
    (h : start + n ≤ 2 ^ 32) : (numbered className kind start n).Nodup := by
  refine List.Nodup.map_on ?_ (List.nodup_range' 1)
  intro i hi j hj heq
  rw [List.mem_range'_1] at hi hj
  exact (labelName_injective (by omega) (by omega) heq).2

theorem disjoint_numbered (className : String) {k k' : LabelKind} (hne : k ≠ k')
    {start n start' n' : Nat} (h : start + n ≤ 2 ^ 32) (h' : start' + n' ≤ 2 ^ 32) :
    List.Disjoint (numbered className k start n) (numbered className k' start' n') := by
  intro name hname hname'
  obtain ⟨i, hi, rfl⟩ := List.mem_map.mp hname
  obtain ⟨j, hj, heq⟩ := List.mem_map.mp hname'
  rw [List.mem_range'_1] at hi hj
  exact hne (labelName_injective (by omega) (by omega) heq.symm).1

namespace LabelCount

variable (className : String)

/-- The labels of the conditionals and loops that `count` counts when `before` come before. -/
def names (before count : LabelCount) : List String :=
  numbered className .ifFalse before.ifs count.ifs ++
    numbered className .ifEnd before.ifs count.ifs ++
    numbered className .whileStart before.whiles count.whiles ++
    numbered className .whileEnd before.whiles count.whiles

theorem count_names_if (before : LabelCount) (name : String) :
    (names className before ⟨1, 0⟩).count name =
      [labelName className .ifFalse before.ifs].count name +
        [labelName className .ifEnd before.ifs].count name := by
  show List.count name ([labelName className .ifFalse before.ifs] ++ [_]) = _
  rw [List.count_append]

theorem count_names_while (before : LabelCount) (name : String) :
    (names className before ⟨0, 1⟩).count name =
      [labelName className .whileStart before.whiles].count name +
        [labelName className .whileEnd before.whiles].count name := by
  show List.count name ([labelName className .whileStart before.whiles] ++ [_]) = _
  rw [List.count_append]

theorem zero_add (x : LabelCount) : 0 + x = x := by
  ext <;> simp only [add_ifs, add_whiles, zero_ifs, zero_whiles, Nat.zero_add]

theorem add_assoc (x y z : LabelCount) : x + y + z = x + (y + z) := by
  ext <;> simp only [add_ifs, add_whiles] <;> omega

theorem count_names_add (before x y : LabelCount) (name : String) :
    (names className before (x + y)).count name =
      (names className before x).count name + (names className (before + x) y).count name := by
  simp only [names, numbered, add_ifs, add_whiles, ← List.range'_append_1, List.map_append,
    List.count_append]
  omega

theorem nodup_names {before count : LabelCount} (hifs : before.ifs + count.ifs ≤ 2 ^ 32)
    (hwhiles : before.whiles + count.whiles ≤ 2 ^ 32) :
    (names className before count).Nodup := by
  simp only [names, List.nodup_append', List.disjoint_append_left]
  simp only [nodup_numbered className _ hifs, nodup_numbered className _ hwhiles, true_and]
  -- what is left are the six pairs of different kinds
  refine ⟨⟨?_, ?_, ?_⟩, ⟨?_, ?_⟩, ?_⟩ <;> apply disjoint_numbered <;> first | assumption | decide

end LabelCount

end Jack
