import Mathlib.Data.List.Perm.Basic
import Jack.Proofs.Class.Label
import Jack.Proofs.Statement.Numbering

/-! Subroutines compiled apart. A class is compiled if each of its subroutines is compiled as the
only one of the class, and its code is made of theirs: each piece has its labels renumbered by the
conditionals and loops of the subroutines in front of it. Nothing else goes from one subroutine to
the next. -/

namespace Jack

open Code

namespace Subroutine

variable {outer : Scope} {shift before : LabelCount} {p : Program}

theorem renumbered_prologue (s : Subroutine) (scope : Scope) (className : String) :
    (s.prologue scope).renumbered className shift = s.prologue scope := by
  unfold prologue
  cases s.kind <;> rfl

theorem code_renumbered (s : Subroutine) (before : LabelCount)
    (fits : (shift + before + s.labels).Fits) :
    s.code outer (shift + before) =
      Code.renumbered outer.className shift (s.code outer before) := by
  unfold code
  cases hscope : s.scope outer with
  | error e => rfl
  | ok scope =>
    have hprologue : Code.renumbered outer.className shift (emit (s.prologue scope)) =
        emit (s.prologue scope) := congrArg emit (s.renumbered_prologue scope _)
    have hbody : Statement.listCode scope (shift + before) s.body.statements =
        Code.renumbered scope.className shift (Statement.listCode scope before s.body.statements) :=
      Statement.listCode_renumbered s.body.statements before fits
    rw [className_scope hscope] at hbody
    show emit (s.prologue scope) ++
      Statement.listCode scope (shift + before) s.body.statements =
      Code.renumbered outer.className shift
        (emit (s.prologue scope) ++ Statement.listCode scope before s.body.statements)
    rw [renumbered_append, hprologue, hbody]

/-- A subroutine behind others has the code that it has in front, renumbered. -/
theorem code_eq_renumbered (s : Subroutine) (fits : (before + s.labels).Fits) :
    s.code outer before = Code.renumbered outer.className before (s.code outer 0) :=
  s.code_renumbered 0 fits

theorem fault?_listCode_eq_none_iff (outer : Scope) {subs : List Subroutine}
    (fits : (before + listLabels subs).Fits) :
    fault? (listCode outer before subs) = none ↔ ∀ s ∈ subs, fault? (s.code outer 0) = none := by
  induction subs generalizing before with
  | nil => exact ⟨fun _ => List.forall_mem_nil _, fun _ => rfl⟩
  | cons first others ih =>
    rw [add_listLabels_cons] at fits
    rw [listCode, fault?_append, Option.or_eq_none_iff, List.forall_mem_cons, ih fits,
      first.code_eq_renumbered fits.left, fault?_renumbered]

/-- Each subroutine stands in the code as it is compiled first, renumbered by those before it. -/
theorem functions_renumbered {subs : List Subroutine} {k : Nat} {s : Subroutine}
    (fits : (before + listLabels subs).Fits) (h : listCode outer before subs = .ok p)
    (hs : subs[k]? = some s) :
    ∃ q, s.code outer 0 = .ok q ∧ p.functions[k]? =
      some (q.renumbered outer.className (before + listLabels (subs.take k))) := by
  induction subs generalizing before p k with
  | nil => cases hs
  | cons first others ih =>
    rw [add_listLabels_cons] at fits
    obtain ⟨scope, body, r, hscope, hbody, hr, -, hfunctions⟩ := functions_listCode_cons h
    rw [hfunctions]
    cases k with
    | zero =>
      obtain rfl : s = first := (Option.some.inj hs).symm
      have hcode : s.code outer before = .ok (s.prologue scope ++ body) := by
        rw [code, hscope, ← ok_append_ok, ← hbody]
        rfl
      rw [s.code_eq_renumbered fits.left, renumbered_eq_ok_iff] at hcode
      obtain ⟨q, hq, hblock⟩ := hcode
      exact ⟨q, hq, congrArg some hblock⟩
    | succ k =>
      obtain ⟨q, hq, hblock⟩ := ih fits hr hs
      rw [List.take_succ_cons, add_listLabels_cons]
      exact ⟨q, hq, hblock⟩

theorem listLabels_perm {subs subs' : List Subroutine} (h : subs.Perm subs') :
    listLabels subs = listLabels subs' := by
  induction h with
  | nil => rfl
  | cons s _ ih => rw [listLabels, listLabels, ih]
  | swap s t others =>
    simp only [listLabels]
    ext <;> simp only [LabelCount.add_ifs, LabelCount.add_whiles] <;> omega
  | trans _ _ ih ih' => exact ih.trans ih'

end Subroutine

/-- The two programs are one program, with its labels renumbered in two ways. -/
def Program.SameButNumbers (className : String) (p p' : Program) : Prop :=
  ∃ (q : Program) (shift shift' : LabelCount),
    p = q.renumbered className shift ∧ p' = q.renumbered className shift'

namespace Class

/-- The class with these subroutines in place of its own. -/
def withSubroutines (c : Class) (subs : List Subroutine) : Class := { c with subroutines := subs }

variable {c : Class} {outer : Scope} {p : Program}

theorem code_withSubroutines (h : c.scope = .ok outer) (subs : List Subroutine) :
    (c.withSubroutines subs).code = Subroutine.listCode outer 0 subs := by
  have hscope : (c.withSubroutines subs).scope = .ok outer := h
  rw [code, hscope]
  rfl

theorem code_withSubroutine (h : c.scope = .ok outer) (s : Subroutine) :
    (c.withSubroutines [s]).code = s.code outer 0 := by
  have hcode : (c.withSubroutines [s]).code = s.code outer 0 ++ emit [] :=
    code_withSubroutines h [s]
  rw [hcode]
  cases s.code outer 0 with
  | error e => rfl
  | ok q => exact congrArg Except.ok (List.append_nil q)

theorem code_withSubroutines_ne_ok {e : CompileError} (h : c.scope = .error e)
    (subs : List Subroutine) : (c.withSubroutines subs).code ≠ .ok p := by
  have hscope : (c.withSubroutines subs).scope = .error e := h
  rw [code, hscope]
  exact nofun

/-- A class is compiled if its declarations are accepted and each of its subroutines is compiled
without the others. -/
theorem exists_code_iff (fits : c.labels.Fits) :
    (∃ p, c.code = .ok p) ↔ (c.subroutines = [] → ∃ outer, c.scope = .ok outer) ∧
      ∀ s ∈ c.subroutines, ∃ q, (c.withSubroutines [s]).code = .ok q := by
  cases hscope : c.scope with
  | error e =>
    constructor
    · rintro ⟨p, hp⟩
      exact absurd hp (code_withSubroutines_ne_ok hscope c.subroutines)
    · rintro ⟨hnone, hall⟩
      cases hsubs : c.subroutines with
      | nil => exact nomatch hnone hsubs
      | cons first others =>
        obtain ⟨q, hq⟩ := hall first (hsubs ▸ List.mem_cons_self)
        exact absurd hq (code_withSubroutines_ne_ok hscope [first])
  | ok outer =>
    have hcode : c.code = Subroutine.listCode outer 0 c.subroutines :=
      code_withSubroutines hscope c.subroutines
    rw [labels, ← LabelCount.zero_add (Subroutine.listLabels _)] at fits
    have hall := Subroutine.fault?_listCode_eq_none_iff outer fits
    simp only [fault?_eq_none_iff] at hall
    simp only [hcode, hall, code_withSubroutine hscope]
    exact ⟨fun h => ⟨fun _ => ⟨outer, rfl⟩, h⟩, And.right⟩

/-- Each subroutine is found in the code of the class as it is compiled without the others, but for
the numbers of its labels. -/
theorem functions_of_code (fits : c.labels.Fits) (compiled : c.code = .ok p) {k : Nat}
    {s : Subroutine} (hs : c.subroutines[k]? = some s) :
    ∃ q, (c.withSubroutines [s]).code = .ok q ∧ p.functions[k]? =
      some (q.renumbered c.name (Subroutine.listLabels (c.subroutines.take k))) := by
  obtain ⟨outer, houter, hcode⟩ := code_eq_ok compiled
  have hname : outer.className = c.name := (Scope.of_declareAll houter).1
  rw [labels, ← LabelCount.zero_add (Subroutine.listLabels _)] at fits
  obtain ⟨q, hq, hblock⟩ := Subroutine.functions_renumbered fits hcode hs
  rw [LabelCount.zero_add, hname] at hblock
  exact ⟨q, (code_withSubroutine houter s).trans hq, hblock⟩

theorem length_functions (compiled : c.code = .ok p) :
    p.functions.length = c.subroutines.length := by
  obtain ⟨outer, -, hcode⟩ := code_eq_ok compiled
  exact Subroutine.length_functions_listCode hcode

/-- A program is what the subroutine is compiled to without the others, with numbers of some kind. -/
def IsPieceOf (c : Class) (s : Subroutine) (block : Program) : Prop :=
  ∃ q shift, (c.withSubroutines [s]).code = .ok q ∧ block = q.renumbered c.name shift

theorem IsPieceOf.same {s : Subroutine} {block block' : Program} (h : c.IsPieceOf s block)
    (h' : c.IsPieceOf s block') : block.SameButNumbers c.name block' := by
  obtain ⟨q, shift, hq, hblock⟩ := h
  obtain ⟨q', shift', hq', hblock'⟩ := h'
  obtain rfl := Except.ok.inj (hq.symm.trans hq')
  exact ⟨q, shift, shift', hblock, hblock'⟩

theorem same_of_pieces {subs : List Subroutine} {blocks blocks' : List Program}
    (h : List.Forall₂ c.IsPieceOf subs blocks) (h' : List.Forall₂ c.IsPieceOf subs blocks') :
    List.Forall₂ (Program.SameButNumbers c.name) blocks blocks' := by
  induction h generalizing blocks' with
  | nil =>
    cases h'
    exact .nil
  | cons hfirst _ ih =>
    cases h' with
    | cons hfirst' hothers' => exact .cons (hfirst.same hfirst') (ih hothers')

theorem pieces_of_code (fits : c.labels.Fits) (compiled : c.code = .ok p) :
    List.Forall₂ c.IsPieceOf c.subroutines p.functions := by
  rw [List.forall₂_iff_get]
  refine ⟨(length_functions compiled).symm, fun k hk hk' => ?_⟩
  obtain ⟨q, hq, hblock⟩ := functions_of_code fits compiled (List.getElem?_eq_getElem hk)
  rw [List.getElem?_eq_getElem hk'] at hblock
  exact ⟨q, _, hq, Option.some.inj hblock⟩

/-- In another order, the subroutines have the same pieces of code in that order, but for the
numbers of labels. -/
theorem code_of_perm (fits : c.labels.Fits) (compiled : c.code = .ok p) {subs : List Subroutine}
    (hperm : subs.Perm c.subroutines) :
    ∃ p', (c.withSubroutines subs).code = .ok p' ∧ ∃ blocks, blocks.Perm p.functions ∧
      List.Forall₂ (Program.SameButNumbers c.name) blocks p'.functions := by
  have hcount : (c.withSubroutines subs).labels = c.labels := Subroutine.listLabels_perm hperm
  have fits' : (c.withSubroutines subs).labels.Fits := hcount ▸ fits
  obtain ⟨hdeclared, hall⟩ := (exists_code_iff fits).mp ⟨p, compiled⟩
  have hexists : ∃ p', (c.withSubroutines subs).code = .ok p' := by
    refine (exists_code_iff fits').mpr ⟨fun hnone => hdeclared ?_, fun s hs => ?_⟩
    · have hempty : [].Perm c.subroutines := hnone ▸ hperm
      exact hempty.symm.eq_nil
    · exact hall s (hperm.mem_iff.mp hs)
  obtain ⟨p', compiled'⟩ := hexists
  obtain ⟨blocks, hblocks, hreordered⟩ :=
    List.perm_comp_forall₂ hperm (pieces_of_code fits compiled)
  exact ⟨p', compiled', blocks, hreordered, same_of_pieces hblocks (pieces_of_code fits' compiled')⟩

/-- The subroutines of a class are compiled apart from each other. The class is compiled exactly if
its declarations are accepted and each subroutine is compiled as the only one; the code is then
theirs, one after the other, each with its label numbers moved on by the conditionals and loops of
those before it; and in another order they have the same code but for these numbers. -/
theorem subroutines_compiled_apart {c : Class} (hifs : c.labels.ifs < 2 ^ 32)
    (hwhiles : c.labels.whiles < 2 ^ 32) :
    ((∃ p, c.code = .ok p) ↔ (c.subroutines = [] → ∃ outer, c.scope = .ok outer) ∧
      ∀ s ∈ c.subroutines, ∃ q, (c.withSubroutines [s]).code = .ok q) ∧
    ∀ p, c.code = .ok p →
      (p = p.functions.flatten ∧ p.functions.length = c.subroutines.length ∧
        ∀ i s, c.subroutines[i]? = some s → ∃ q, (c.withSubroutines [s]).code = .ok q ∧
          p.functions[i]? =
            some (q.renumbered c.name (Subroutine.listLabels (c.subroutines.take i)))) ∧
      ∀ subs : List Subroutine, subs.Perm c.subroutines →
        ∃ p', (c.withSubroutines subs).code = .ok p' ∧ ∃ blocks, blocks.Perm p.functions ∧
          List.Forall₂ (Program.SameButNumbers c.name) blocks p'.functions := by
  have fits : c.labels.Fits := ⟨hifs.le, hwhiles.le⟩
  refine ⟨exists_code_iff fits, fun p compiled => ⟨⟨?_, length_functions compiled, ?_⟩, ?_⟩⟩
  · exact (List.flatten_splitBy _ p).symm
  · exact fun i s hs => functions_of_code fits compiled hs
  · exact fun subs hperm => code_of_perm fits compiled hperm

end Class

/-- A function that counts down, and stops early at seven. -/
def countDown : Subroutine where
  kind := .function
  returnType := some .int
  name := "down"
  parameters := [⟨.int, "n"⟩]
  body := {
    locals := []
    statements := [
      .while (.binary (.term (.variable "n")) .greater (.integer 0)) [
        .if (.binary (.term (.variable "n")) .equal (.integer 7))
          [.return (some (.term (.variable "n")))]
          none,
        .let "n" none (.binary (.term (.variable "n")) .subtract (.integer 1))],
      .return none] }

def countDownCode (number : String) : Program := [
  .function "Sum.down" 0,
  .label s!"Sum.WHILE_START${number}",
  .push .argument 0, .push .constant 0, .arithmetic .gt,
  .arithmetic .not, .ifGoto s!"Sum.WHILE_END${number}",
  .push .argument 0, .push .constant 7, .arithmetic .eq,
  .arithmetic .not, .ifGoto s!"Sum.IF_FALSE${number}",
  .push .argument 0, .return,
  .goto s!"Sum.IF_END${number}", .label s!"Sum.IF_FALSE${number}",
  .label s!"Sum.IF_END${number}",
  .push .argument 0, .push .constant 1, .arithmetic .sub, .pop .argument 0,
  .goto s!"Sum.WHILE_START${number}", .label s!"Sum.WHILE_END${number}",
  .push .constant 0, .return]

def twoLoops : Class := summing.withSubroutines [sumElements, countDown]

theorem subroutines_compiled_apart_twoLoops :
    twoLoops.labels.ifs < 2 ^ 32 ∧ twoLoops.labels.whiles < 2 ^ 32 ∧
      twoLoops.code = .ok (summingCode ++ countDownCode "1") ∧
      (twoLoops.withSubroutines [countDown]).code = .ok (countDownCode "0") ∧
      countDownCode "1" = (countDownCode "0").renumbered "Sum" ⟨1, 1⟩ := by
  have hifs : twoLoops.labels.ifs < 2 ^ 32 := by decide
  have hwhiles : twoLoops.labels.whiles < 2 ^ 32 := by decide
  have compiled : twoLoops.code = .ok (summingCode ++ countDownCode "1") := rfl
  have alone : (twoLoops.withSubroutines [countDown]).code = .ok (countDownCode "0") := rfl
  obtain ⟨⟨-, -, hblocks⟩, -⟩ :=
    (Class.subroutines_compiled_apart hifs hwhiles).2 _ compiled
  obtain ⟨q, hq, hblock⟩ := hblocks 1 countDown rfl
  obtain rfl := Except.ok.inj (alone.symm.trans hq)
  have hsecond : (summingCode ++ countDownCode "1").functions[1]? =
      some (countDownCode "1") := by decide
  rw [hsecond, Option.some.injEq] at hblock
  exact ⟨hifs, hwhiles, compiled, alone, hblock⟩

end Jack
