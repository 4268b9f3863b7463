import Mathlib.Data.List.SplitBy
import Jack.Class.Code
import Jack.Proofs.Statement.Execution
import Jack.Proofs.Statement.Shape

/-! Code of a class falls apart into the code of its subroutines, each of which begins with its
`function` instruction and has a stretch of label numbers of its own. -/

namespace Jack

open Code

/-- The subroutines that a program consists of, each up to where the next one begins. -/
def Program.functions (p : Program) : List Program :=
  p.splitBy fun _ next => !next.isFunction

/-- Where the code is not empty, a subroutine begins with it. -/
def Program.Opens (p : Program) : Prop := ∀ i ∈ p.head?, i.isFunction

namespace Program

theorem isChain_inner {first : Instruction} {rest : Program} (h : rest.Inner) :
    List.IsChain (fun _ next => !Instruction.isFunction next) (first :: rest) := by
  induction rest generalizing first with
  | nil => exact List.isChain_singleton _
  | cons i rest ih =>
    rw [inner_cons] at h
    rw [List.isChain_cons_cons, h.1]
    exact ⟨rfl, ih h.2⟩

theorem functions_append (first : Instruction) {rest others : Program} (hrest : rest.Inner)
    (hothers : others.Opens) :
    functions (first :: rest ++ others) = (first :: rest) :: functions others := by
  unfold functions
  rw [List.splitBy_append, List.splitBy_of_isChain (List.cons_ne_nil _ _) (isChain_inner hrest),
    List.singleton_append]
  intro _ _ i hi
  rw [hothers i hi]
  rfl

end Program

namespace Subroutine

/-- How many labels the statements of several subroutines use up. -/
def listLabels : List Subroutine → LabelCount
  | [] => 0
  | first :: others => first.labels + listLabels others

variable {outer : Scope} {before : LabelCount} {p : Program}

theorem code_eq_ok {s : Subroutine} (h : s.code outer before = .ok p) :
    ∃ scope body, s.scope outer = .ok scope ∧
      Statement.listCode scope before s.body.statements = .ok body ∧
      p = s.prologue scope ++ body := by
  unfold code at h
  cases hscope : s.scope outer with
  | error e =>
    rw [hscope] at h
    cases h
  | ok scope =>
    rw [hscope] at h
    change emit (s.prologue scope) ++ Statement.listCode scope before s.body.statements = .ok p at h
    obtain ⟨_, body, hprologue, hbody, rfl⟩ := append_eq_ok_iff.mp h
    rw [emit_eq_ok_iff] at hprologue
    exact ⟨scope, body, rfl, hbody, by rw [hprologue]⟩

theorem listCode_cons {first : Subroutine} {others : List Subroutine}
    (h : listCode outer before (first :: others) = .ok p) :
    ∃ q r, first.code outer before = .ok q ∧
      listCode outer (before + first.labels) others = .ok r ∧ p = q ++ r := by
  rw [listCode, append_eq_ok_iff] at h
  obtain ⟨q, r, hq, hr, rfl⟩ := h
  exact ⟨q, r, hq, hr, rfl⟩

theorem prologue_eq_cons (s : Subroutine) (scope : Scope) :
    ∃ first rest, s.prologue scope = first :: rest ∧ first.isFunction ∧ Program.Inner rest := by
  unfold prologue
  refine ⟨_, _, rfl, rfl, ?_⟩
  cases s.kind <;> simp [Instruction.isFunction]

theorem labels_prologue (s : Subroutine) (scope : Scope) : (s.prologue scope).labels = [] := by
  unfold prologue
  cases s.kind <;> rfl

theorem opens_listCode {subs : List Subroutine} (h : listCode outer before subs = .ok p) :
    p.Opens := by
  cases subs with
  | nil =>
    rw [listCode, emit_eq_ok_iff] at h
    rw [← h]
    exact fun i hi => absurd hi (Option.not_mem_none i)
  | cons first others =>
    obtain ⟨q, r, hq, -, rfl⟩ := listCode_cons h
    obtain ⟨scope, body, -, -, rfl⟩ := code_eq_ok hq
    obtain ⟨i, rest, hprologue, hi, -⟩ := first.prologue_eq_cons scope
    rw [hprologue]
    intro j hj
    rw [← Option.some.inj hj]
    exact hi

theorem add_listLabels_cons (before : LabelCount) (first : Subroutine)
    (others : List Subroutine) :
    before + listLabels (first :: others) = before + first.labels + listLabels others := by
  rw [listLabels, LabelCount.add_assoc]

/-- The first subroutine is the first piece, and the others are cut by themselves. -/
theorem functions_listCode_cons {first : Subroutine} {others : List Subroutine}
    (h : listCode outer before (first :: others) = .ok p) :
    ∃ scope body r, first.scope outer = .ok scope ∧
      Statement.listCode scope before first.body.statements = .ok body ∧
      listCode outer (before + first.labels) others = .ok r ∧
      p = first.prologue scope ++ body ++ r ∧
      p.functions = (first.prologue scope ++ body) :: r.functions := by
  obtain ⟨q, r, hq, hr, rfl⟩ := listCode_cons h
  obtain ⟨scope, body, hscope, hbody, rfl⟩ := code_eq_ok hq
  obtain ⟨i, rest, hprologue, -, hrest⟩ := first.prologue_eq_cons scope
  have hinner : Program.Inner (rest ++ body) :=
    Program.inner_append.mpr ⟨hrest, Statement.inner_listCode _ hbody⟩
  have hfunctions := Program.functions_append i hinner (opens_listCode hr)
  rw [← List.cons_append, ← hprologue] at hfunctions
  exact ⟨scope, body, r, hscope, hbody, hr, rfl, hfunctions⟩

/-- Each subroutine is found in the code under its number, with its own stretch of labels. -/
theorem functions_listCode {subs : List Subroutine} {k : Nat} {s : Subroutine}
    (h : listCode outer before subs = .ok p) (hs : subs[k]? = some s) :
    ∃ earlier scope body, s.scope outer = .ok scope ∧
      Statement.listCode scope earlier s.body.statements = .ok body ∧
      p.functions[k]? = some (s.prologue scope ++ body) ∧
      (earlier + s.labels).ifs ≤ (before + listLabels subs).ifs ∧
      (earlier + s.labels).whiles ≤ (before + listLabels subs).whiles := by
  induction subs generalizing before p k with
  | nil => cases hs
  | cons first others ih =>
    obtain ⟨scope, body, r, hscope, hbody, hr, -, hfunctions⟩ := functions_listCode_cons h
    rw [hfunctions, add_listLabels_cons]
    cases k with
    | zero =>
      cases hs
      exact ⟨before, scope, body, hscope, hbody, rfl, Nat.le_add_right _ _,
        Nat.le_add_right _ _⟩
    | succ k => exact ih hr hs

theorem length_functions_listCode {subs : List Subroutine}
    (h : listCode outer before subs = .ok p) : p.functions.length = subs.length := by
  induction subs generalizing before p with
  | nil =>
    rw [listCode, emit_eq_ok_iff] at h
    rw [← h]
    rfl
  | cons first others ih =>
    obtain ⟨scope, body, r, -, -, hr, -, hfunctions⟩ := functions_listCode_cons h
    rw [hfunctions, List.length_cons, List.length_cons, ih hr]

/-- There is nothing else in the code than the subroutines. -/
theorem exists_of_functions_listCode {subs : List Subroutine} {k : Nat} {block : Program}
    (h : listCode outer before subs = .ok p) (hblock : p.functions[k]? = some block) :
    ∃ s earlier scope body, subs[k]? = some s ∧ s.scope outer = .ok scope ∧
      Statement.listCode scope earlier s.body.statements = .ok body ∧
      block = s.prologue scope ++ body := by
  have hk : k < subs.length :=
    length_functions_listCode h ▸ (List.getElem?_eq_some_iff.mp hblock).1
  have hs : subs[k]? = some subs[k] := List.getElem?_eq_getElem hk
  obtain ⟨earlier, scope, body, hscope, hbody, hfunctions, -, -⟩ := functions_listCode h hs
  rw [hblock] at hfunctions
  exact ⟨subs[k], earlier, scope, body, hs, hscope, hbody, Option.some.inj hfunctions⟩

/-- An instruction of a class belongs to one of its subroutines. -/
theorem exists_of_mem_listCode {subs : List Subroutine} {i : Instruction}
    (h : listCode outer before subs = .ok p) (hi : i ∈ p) :
    ∃ s ∈ subs, ∃ scope earlier body, s.scope outer = .ok scope ∧
      Statement.listCode scope earlier s.body.statements = .ok body ∧
      (i ∈ s.prologue scope ∨ i ∈ body) := by
  rw [← List.flatten_splitBy _ p, List.mem_flatten] at hi
  obtain ⟨block, hblock, hi⟩ := hi
  obtain ⟨k, hk⟩ := List.mem_iff_getElem?.mp hblock
  obtain ⟨s, earlier, scope, body, hs, hscope, hbody, rfl⟩ := exists_of_functions_listCode h hk
  exact ⟨s, List.mem_of_getElem? hs, scope, earlier, body, hscope, hbody, List.mem_append.mp hi⟩

theorem code_subset_listCode {subs : List Subroutine} {s : Subroutine}
    (h : listCode outer before subs = .ok p) (hs : s ∈ subs) :
    ∃ scope earlier body, s.scope outer = .ok scope ∧
      Statement.listCode scope earlier s.body.statements = .ok body ∧
      s.prologue scope ++ body ⊆ p := by
  obtain ⟨k, hk⟩ := List.mem_iff_getElem?.mp hs
  obtain ⟨earlier, scope, body, hscope, hbody, hblock, -, -⟩ := functions_listCode h hk
  refine ⟨scope, earlier, body, hscope, hbody, fun i hi => ?_⟩
  rw [← List.flatten_splitBy _ p]
  exact List.mem_flatten_of_mem (List.mem_of_getElem? hblock) hi

end Subroutine

namespace Class

/-- How many conditionals and loops there are in a class. -/
def labels (c : Class) : LabelCount := Subroutine.listLabels c.subroutines

def callsFit (c : Class) : Prop :=
  ∀ s ∈ c.subroutines, Statement.listCallsFit s.body.statements

theorem code_eq_ok {c : Class} {p : Program} (h : c.code = .ok p) :
    ∃ outer, c.scope = .ok outer ∧ Subroutine.listCode outer 0 c.subroutines = .ok p := by
  unfold code at h
  cases hscope : c.scope with
  | error e =>
    rw [hscope] at h
    cases h
  | ok outer =>
    rw [hscope] at h
    exact ⟨outer, rfl, h⟩

end Class

/-- A method that adds up an array and makes its elements positive on the way. -/
def sumElements : Subroutine where
  kind := .method
  returnType := some .int
  name := "sum"
  parameters := [⟨.object "Array", "a"⟩, ⟨.int, "n"⟩]
  body := {
    locals := [⟨.int, ["i"]⟩]
    statements := [
      .while (.binary (.term (.variable "i")) .less (.variable "n")) [
        .if (.binary (.term (.element "a" (.term (.variable "i")))) .less (.integer 0))
          [.let "a" (some (.term (.variable "i")))
            (.term (.unary .negate (.element "a" (.term (.variable "i")))))]
          none,
        .let "total" none
          (.binary (.term (.variable "total")) .add (.element "a" (.term (.variable "i")))),
        .let "i" none (.binary (.term (.variable "i")) .add (.integer 1))],
      .return (some (.term (.variable "total")))] }

def summing : Class := ⟨"Sum", [⟨.field, .int, ["total"]⟩], [sumElements]⟩

def summingCode : Program := [
  .function "Sum.sum" 1, .push .argument 0, .pop .pointer 0,
  .label "Sum.WHILE_START$0",
  .push .local 0, .push .argument 2, .arithmetic .lt,
  .arithmetic .not, .ifGoto "Sum.WHILE_END$0",
  .push .argument 1, .push .local 0, .arithmetic .add, .pop .pointer 1, .push .that 0,
  .push .constant 0, .arithmetic .lt,
  .arithmetic .not, .ifGoto "Sum.IF_FALSE$0",
  .push .argument 1, .push .local 0, .arithmetic .add,
  .push .argument 1, .push .local 0, .arithmetic .add, .pop .pointer 1, .push .that 0,
  .arithmetic .neg, .pop .temp 0, .pop .pointer 1, .push .temp 0, .pop .that 0,
  .goto "Sum.IF_END$0", .label "Sum.IF_FALSE$0", .label "Sum.IF_END$0",
  .push .this 0,
  .push .argument 1, .push .local 0, .arithmetic .add, .pop .pointer 1, .push .that 0,
  .arithmetic .add, .pop .this 0,
  .push .local 0, .push .constant 1, .arithmetic .add, .pop .local 0,
  .goto "Sum.WHILE_START$0", .label "Sum.WHILE_END$0",
  .push .this 0, .return]

end Jack
