import Jack.Proofs.Class.Shape

/-! Jumps in the code of a class. The labels are numbered through the whole class, so no two of
them have the same name, and a jump goes to a label of the statement that it belongs to, so it
does not leave its subroutine. -/

namespace Jack

open Code

def Instruction.target? : Instruction → Option String
  | goto target | ifGoto target => some target
  | _ => none

namespace Program

/-- Some jump goes to the label. -/
def JumpsTo (p : Program) (target : String) : Prop := ∃ i ∈ p, i.target? = some target

variable {p q : Program} {target : String}

@[simp] theorem jumpsTo_append : JumpsTo (p ++ q) target ↔ p.JumpsTo target ∨ q.JumpsTo target := by
  simp only [JumpsTo, List.mem_append, or_and_right, exists_or]

@[simp] theorem jumpsTo_cons {i : Instruction} :
    JumpsTo (i :: p) target ↔ i.target? = some target ∨ p.JumpsTo target := by
  simp only [JumpsTo, List.mem_cons, or_and_right, exists_or, exists_eq_left]

@[simp] theorem not_jumpsTo_nil : ¬ JumpsTo [] target := by
  rintro ⟨i, hi, -⟩
  exact List.not_mem_nil hi

theorem Plain.not_jumpsTo (h : p.Plain) : ¬ p.JumpsTo target := by
  rintro ⟨i, hi, htarget⟩
  have hplain := h i hi
  cases i <;> simp_all [Instruction.isPlain, Instruction.target?]

/-- Each jump goes to a label of the program. -/
def Closed (p : Program) : Prop := ∀ target, p.JumpsTo target → .label target ∈ p

theorem Closed.append (hp : p.Closed) (hq : q.Closed) : (p ++ q).Closed := by
  intro target h
  rw [List.mem_append]
  exact (jumpsTo_append.mp h).imp (hp target) (hq target)

theorem Plain.closed (h : p.Plain) : p.Closed := fun _ hjump => absurd hjump h.not_jumpsTo

end Program

namespace Statement

variable {scope : Scope}

/-- A statement jumps to its own labels and to those of the statements inside it only. -/
theorem closed_cases :
    CodeInduction scope (fun _ _ p => p.Closed) (fun _ _ p => p.Closed) where
  assign _ hq := (Expression.plain_code _ hq).closed.append <|
    Program.Plain.closed (by simp [Variable.pop, Instruction.isPlain])
  assignElement _ hq hr := by
    intro target h
    simp [(Expression.plain_code _ hq).not_jumpsTo, (Expression.plain_code _ hr).not_jumpsTo,
      storeElement, Variable.push, Instruction.target?] at h
  conditional hc _ ht he := by
    intro target h
    simp only [Program.jumpsTo_append, Program.jumpsTo_cons, Program.not_jumpsTo_nil,
      (Expression.plain_code _ hc).not_jumpsTo, Instruction.target?, Option.some.injEq,
      reduceCtorEq, or_false, false_or] at h
    rcases h with ((rfl | hjump) | rfl) | hjump
    · simp
    · simp [ht target hjump]
    · simp
    · simp [he target hjump]
  loop hc hb := by
    intro target h
    simp only [Program.jumpsTo_append, Program.jumpsTo_cons, Program.not_jumpsTo_nil,
      (Expression.plain_code _ hc).not_jumpsTo, Instruction.target?, Option.some.injEq,
      reduceCtorEq, or_false, false_or] at h
    rcases h with (rfl | hjump) | rfl
    · simp
    · simp [hb target hjump]
    · simp
  call hq := (Call.plain_code _ hq).closed.append <|
    Program.Plain.closed (by simp [Instruction.isPlain])
  returnNone := by simp [Program.Closed, Instruction.target?]
  returnSome hq := (Expression.plain_code _ hq).closed.append
    (by simp [Program.Closed, Instruction.target?])
  nil := Program.plain_nil.closed
  cons _ hfirst hothers := hfirst.append hothers

end Statement

namespace LabelCount

/-- The labels of a class, told by their text. -/
theorem mem_names_zero {className name : String} {count : LabelCount} (hifs : count.ifs ≤ 2 ^ 32)
    (hwhiles : count.whiles ≤ 2 ^ 32) :
    name ∈ names className 0 count ↔
      (∃ i < count.ifs,
        name = s!"{className}.IF_FALSE${i}" ∨ name = s!"{className}.IF_END${i}") ∨
      ∃ j < count.whiles,
        name = s!"{className}.WHILE_START${j}" ∨ name = s!"{className}.WHILE_END${j}" := by
  have htext (kind : LabelKind) {text : String} (hkind : s!".{kind.text}$" = text) {n : Nat}
      (hn : n ≤ 2 ^ 32) :
      name ∈ numbered className kind 0 n ↔ ∃ i < n, name = s!"{className}{text}{i}" := by
    simp only [numbered, List.mem_map, List.mem_range'_1, Nat.zero_le, Nat.zero_add, true_and]
    refine exists_congr fun i => and_congr_right fun hi => ?_
    rw [labelName_eq className kind (hi.trans_le hn), eq_comm, ← hkind]
    show name = className ++ "." ++ kind.text ++ "$" ++ toString i ↔
      name = className ++ ("." ++ kind.text ++ "$") ++ toString i
    simp only [String.append_assoc]
  simp only [names, zero_ifs, zero_whiles, List.mem_append, and_or_left, exists_or, or_assoc,
    htext .ifFalse rfl hifs, htext .ifEnd rfl hifs, htext .whileStart rfl hwhiles,
    htext .whileEnd rfl hwhiles]
  rfl

end LabelCount

namespace Subroutine

variable {outer : Scope} {before : LabelCount} {p : Program}

theorem className_scope {s : Subroutine} {scope : Scope} (h : s.scope outer = .ok scope) :
    scope.className = outer.className := (Scope.of_declareAll h).1

theorem count_labels_listCode {subs : List Subroutine} (h : listCode outer before subs = .ok p)
    (name : String) :
    p.labels.count name =
      (LabelCount.names outer.className before (listLabels subs)).count name := by
  induction subs generalizing before p with
  | nil =>
    rw [listCode, emit_eq_ok_iff] at h
    rw [← h]
    rfl
  | cons first others ih =>
    obtain ⟨scope, body, r, hscope, hbody, hr, rfl, -⟩ := functions_listCode_cons h
    rw [Program.labels_append, Program.labels_append, labels_prologue, List.nil_append,
      List.count_append, Statement.count_labels_listCode _ hbody, ih hr, className_scope hscope,
      listLabels, LabelCount.count_names_add, labels]

theorem closed_prologue (s : Subroutine) (scope : Scope) : (s.prologue scope).Closed := by
  unfold prologue
  cases s.kind <;> simp [Program.Closed, Instruction.target?]

end Subroutine

namespace Class

/-- The labels in the code of a class, up to their order. -/
theorem perm_labels_code {c : Class} {p : Program} (compiled : c.code = .ok p) :
    p.labels.Perm (LabelCount.names c.name 0 c.labels) := by
  obtain ⟨outer, houter, hcode⟩ := code_eq_ok compiled
  have hname : outer.className = c.name := (Scope.of_declareAll houter).1
  rw [List.perm_iff_count]
  intro name
  rw [Subroutine.count_labels_listCode hcode, hname, labels]

/-- All labels of a class are different, they are numbered without gaps, and each jump goes to
a label of its own subroutine. -/
theorem jumps_stay_in_functions {c : Class} {p : Program} (compiled : c.code = .ok p)
    (hifs : c.labels.ifs < 2 ^ 32) (hwhiles : c.labels.whiles < 2 ^ 32) :
    p.labels.Nodup ∧
    (∀ name, name ∈ p.labels ↔
      (∃ i < c.labels.ifs, name = s!"{c.name}.IF_FALSE${i}" ∨ name = s!"{c.name}.IF_END${i}") ∨
      ∃ j < c.labels.whiles,
        name = s!"{c.name}.WHILE_START${j}" ∨ name = s!"{c.name}.WHILE_END${j}") ∧
    p.functions.flatten = p ∧
    ∀ block ∈ p.functions,
      (∃ first rest, block = first :: rest ∧ first.isFunction ∧ Program.Inner rest) ∧
      ∀ target, .goto target ∈ block ∨ .ifGoto target ∈ block →
        p.labels.count target = 1 ∧ .label target ∈ block := by
  have hperm := perm_labels_code compiled
  have hnodup : p.labels.Nodup := by
    rw [hperm.nodup_iff]
    exact LabelCount.nodup_names _ (by simpa using hifs.le) (by simpa using hwhiles.le)
  refine ⟨hnodup, fun name => ?_, List.flatten_splitBy _ _, ?_⟩
  · rw [hperm.mem_iff]
    exact LabelCount.mem_names_zero hifs.le hwhiles.le
  · intro block hblock
    obtain ⟨outer, -, hcode⟩ := code_eq_ok compiled
    obtain ⟨k, hk⟩ := List.mem_iff_getElem?.mp hblock
    obtain ⟨s, earlier, scope, body, -, -, hbody, rfl⟩ :=
      Subroutine.exists_of_functions_listCode hcode hk
    constructor
    · obtain ⟨first, rest, hprologue, hfirst, hrest⟩ := s.prologue_eq_cons scope
      have hinner := Statement.inner_listCode _ hbody
      exact ⟨first, rest ++ body, by rw [hprologue, List.cons_append], hfirst,
        Program.inner_append.mpr ⟨hrest, hinner⟩⟩
    · intro target hjump
      have hclosed := (s.closed_prologue scope).append (Statement.closed_cases.listCode _ hbody)
      have hlabel : .label target ∈ s.prologue scope ++ body := by
        rcases hjump with hjump | hjump
        · exact hclosed target ⟨_, hjump, rfl⟩
        · exact hclosed target ⟨_, hjump, rfl⟩
      refine ⟨List.count_eq_one_of_mem hnodup (Program.mem_labels.mpr ?_), hlabel⟩
      rw [← List.flatten_splitBy _ p, ← Program.functions]
      exact List.mem_flatten_of_mem hblock hlabel

end Class

theorem jumps_stay_in_functions_summing :
    summing.code = .ok summingCode ∧ summing.labels.ifs < 2 ^ 32 ∧
      summing.labels.whiles < 2 ^ 32 ∧ summingCode.labels.Nodup ∧
      summingCode.labels.count "Sum.WHILE_END$0" = 1 := by
  have compiled : summing.code = .ok summingCode := rfl
  have hifs : summing.labels.ifs < 2 ^ 32 := by decide
  have hwhiles : summing.labels.whiles < 2 ^ 32 := by decide
  obtain ⟨hnodup, -, -, hblocks⟩ := Class.jumps_stay_in_functions compiled hifs hwhiles
  obtain ⟨-, hjumps⟩ := hblocks summingCode (by decide)
  exact ⟨compiled, hifs, hwhiles, hnodup, (hjumps _ (.inr (by decide))).1⟩

end Jack
