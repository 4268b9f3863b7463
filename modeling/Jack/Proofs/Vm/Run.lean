import Mathlib.Data.List.Basic
import Jack.Proofs.Vm.Machine

/-! Runs of a program, which here is the code of one subroutine, with jumps. A run is a number of
steps; it stops at a `return`, at the end of the program, or where an instruction cannot be run.
Labels are looked up by name, so a jump goes where it should if no label occurs twice. -/

namespace Jack

structure State where
  pc : Nat
  machine : Machine

/-- Where a jump to a label leads. -/
def Program.position (program : Program) (name : String) : Option Nat :=
  program.idxOf? (.label name)

def Instruction.label? : Instruction → Option String
  | label name => some name
  | _ => none

def Program.labels (program : Program) : List String := program.filterMap Instruction.label?

namespace State

variable (oracle : Oracle) (program : Program)

def step (s : State) : Option State :=
  match program[s.pc]? with
  | none => none
  | some (.goto target) => (program.position target).map fun pc => { s with pc := pc }
  | some (.ifGoto target) =>
    match s.machine.stack with
    | [] => none
    | w :: stack =>
      let pc := if w = 0 then some (s.pc + 1) else program.position target
      pc.map fun pc => ⟨pc, { s.machine with stack := stack }⟩
  | some i => (i.effect oracle s.machine).map fun m => ⟨s.pc + 1, m⟩

/-- The state `n` steps later, if the run does not stop before. -/
def after : Nat → State → Option State
  | 0, s => some s
  | n + 1, s => (s.step oracle program).bind (after n)

def Reaches (s t : State) : Prop := ∃ n, s.after oracle program n = some t

def StopsWithin (n : Nat) (s : State) : Prop := s.after oracle program n = none

variable {oracle program} {s t u : State}

theorem after_add (m n : Nat) (s : State) :
    s.after oracle program (m + n) =
      (s.after oracle program m).bind (after oracle program n) := by
  induction m generalizing s with
  | zero => rw [Nat.zero_add]; rfl
  | succ m ih =>
    rw [Nat.succ_add]
    simp only [after, Option.bind_assoc]
    exact congrArg _ (funext ih)

theorem Reaches.refl (s : State) : s.Reaches oracle program s := ⟨0, rfl⟩

theorem Reaches.of_step (h : s.step oracle program = some t) : s.Reaches oracle program t :=
  ⟨1, by simp only [after, h, Option.bind_some]⟩

theorem Reaches.trans (first : s.Reaches oracle program t) (second : t.Reaches oracle program u) :
    s.Reaches oracle program u := by
  obtain ⟨m, hm⟩ := first
  obtain ⟨n, hn⟩ := second
  exact ⟨m + n, by rw [after_add, hm, Option.bind_some, hn]⟩

theorem StopsWithin.mono {m n : Nat} (stops : s.StopsWithin oracle program m) (hle : m ≤ n) :
    s.StopsWithin oracle program n := by
  obtain ⟨k, rfl⟩ := Nat.exists_eq_add_of_le hle
  unfold StopsWithin at stops ⊢
  rw [after_add, stops, Option.bind_none]

theorem StopsWithin.of_reaches {n : Nat} (stops : s.StopsWithin oracle program n)
    (reaches : s.Reaches oracle program t) : t.StopsWithin oracle program n := by
  obtain ⟨k, hk⟩ := reaches
  have hlater : s.StopsWithin oracle program (k + n) := stops.mono (Nat.le_add_left n k)
  unfold StopsWithin at hlater ⊢
  rwa [after_add, hk, Option.bind_some] at hlater

theorem StopsWithin.of_step {n : Nat} (stops : s.StopsWithin oracle program n)
    (h : s.step oracle program = some t) : ∃ m < n, t.StopsWithin oracle program m := by
  cases n with
  | zero => cases stops
  | succ n =>
    refine ⟨n, Nat.lt_succ_self n, ?_⟩
    unfold StopsWithin at stops
    rwa [after, h, Option.bind_some] at stops

theorem Reaches.stopsWithin (reaches : s.Reaches oracle program t)
    (last : t.step oracle program = none) : ∃ n, s.StopsWithin oracle program n := by
  obtain ⟨n, hn⟩ := reaches
  refine ⟨n + 1, ?_⟩
  unfold StopsWithin
  rw [after_add, hn, Option.bind_some, after, last]
  rfl

theorem eq_of_after_eq_some {n : Nat} (last : s.step oracle program = none)
    (h : s.after oracle program n = some t) : s = t := by
  cases n with
  | zero => exact Option.some.inj h
  | succ n =>
    rw [after, last] at h
    cases h

/-- A run has at most one last state. -/
theorem Reaches.unique (first : s.Reaches oracle program t) (second : s.Reaches oracle program u)
    (ht : t.step oracle program = none) (hu : u.step oracle program = none) : t = u := by
  obtain ⟨m, hm⟩ := first
  obtain ⟨n, hn⟩ := second
  -- the run that gets there first cannot go on
  rcases Nat.le_total m n with hle | hle
  · obtain ⟨k, rfl⟩ := Nat.exists_eq_add_of_le hle
    rw [after_add, hm, Option.bind_some] at hn
    exact eq_of_after_eq_some ht hn
  · obtain ⟨k, rfl⟩ := Nat.exists_eq_add_of_le hle
    rw [after_add, hn, Option.bind_some] at hm
    exact (eq_of_after_eq_some hu hm).symm

end State

namespace Program

variable {oracle : Oracle} {program : Program}

/-- The instructions at `pc` and after it begin with `part`. -/
def HasAt (program : Program) (pc : Nat) (part : Program) : Prop :=
  ∃ before after, program = before ++ part ++ after ∧ before.length = pc

theorem HasAt.left {pc : Nat} {p q : Program} (h : program.HasAt pc (p ++ q)) :
    program.HasAt pc p := by
  obtain ⟨before, after, rfl, rfl⟩ := h
  exact ⟨before, q ++ after, by simp only [List.append_assoc], rfl⟩

theorem HasAt.right {pc : Nat} {p q : Program} (h : program.HasAt pc (p ++ q)) :
    program.HasAt (pc + p.length) q := by
  obtain ⟨before, after, rfl, rfl⟩ := h
  exact ⟨before ++ p, after, by simp only [List.append_assoc], List.length_append⟩

theorem HasAt.head {pc : Nat} {i : Instruction} {rest : Program}
    (h : program.HasAt pc (i :: rest)) : program.HasAt pc [i] := HasAt.left (p := [i]) h

theorem HasAt.tail {pc : Nat} {i : Instruction} {rest : Program}
    (h : program.HasAt pc (i :: rest)) : program.HasAt (pc + 1) rest := HasAt.right (p := [i]) h

theorem HasAt.getElem? {pc : Nat} {i : Instruction} {rest : Program}
    (h : program.HasAt pc (i :: rest)) : program[pc]? = some i := by
  obtain ⟨before, after, rfl, rfl⟩ := h
  simp

theorem labels_append (p q : Program) : (p ++ q).labels = p.labels ++ q.labels :=
  List.filterMap_append

theorem mem_labels {p : Program} {name : String} :
    name ∈ p.labels ↔ .label name ∈ p := by
  unfold labels
  rw [List.mem_filterMap]
  constructor
  · rintro ⟨i, hi, hname⟩
    cases i <;> simp_all [Instruction.label?]
  · intro h
    exact ⟨_, h, rfl⟩

/-- A label that stands at `pc` is found there if no label occurs twice. -/
theorem position_of_hasAt (unique : program.labels.Nodup) {pc : Nat} {name : String}
    {rest : Program} (h : program.HasAt pc (.label name :: rest)) :
    program.position name = some pc := by
  obtain ⟨before, after, rfl, rfl⟩ := h
  -- a second one in front of it would make the labels repeat
  have hbefore : .label name ∉ before := by
    intro hmem
    rw [List.append_assoc, labels_append, List.nodup_append] at unique
    refine unique.2.2 name (mem_labels.mpr hmem) name (mem_labels.mpr ?_) rfl
    simp
  have hnone : before.findIdx? (· == .label name) = none := by
    rw [List.findIdx?_eq_none_iff]
    intro i hi
    rw [beq_eq_false_iff_ne]
    rintro rfl
    exact hbefore hi
  rw [position, List.idxOf?, List.append_assoc, List.findIdx?_append, hnone]
  simp [List.findIdx?_cons]

end Program

/-- A state without its scratch words. -/
structure Point where
  pc : Nat
  store : Store
  stack : List Word

def Point.state (p : Point) (scratch : Scratch) : State := ⟨p.pc, p.store, scratch, p.stack⟩

namespace Program

variable {oracle : Oracle} {program : Program}

/-- Whatever the scratch words hold, a run from `a` comes to `b`. -/
def Leads (oracle : Oracle) (program : Program) (a b : Point) : Prop :=
  ∀ scratch, ∃ scratch', (a.state scratch).Reaches oracle program (b.state scratch')

theorem Leads.refl (a : Point) : program.Leads oracle a a :=
  fun scratch => ⟨scratch, .refl _⟩

theorem Leads.trans {a b c : Point} (first : program.Leads oracle a b)
    (second : program.Leads oracle b c) : program.Leads oracle a c := by
  intro scratch
  obtain ⟨between, hfirst⟩ := first scratch
  obtain ⟨scratch', hsecond⟩ := second between
  exact ⟨scratch', hfirst.trans hsecond⟩

theorem step_of_effect {pc : Nat} {i : Instruction} {m m' : Machine} (hi : program[pc]? = some i)
    (heffect : i.effect oracle m = some m') :
    State.step oracle program ⟨pc, m⟩ = some ⟨pc + 1, m'⟩ := by
  unfold State.step
  cases i <;> simp_all [Instruction.effect]

theorem reaches_of_execute {pc : Nat} {p : Program} {m m' : Machine} (hp : program.HasAt pc p)
    (run : p.execute oracle m = some m') :
    State.Reaches oracle program ⟨pc, m⟩ ⟨pc + p.length, m'⟩ := by
  induction p generalizing pc m with
  | nil =>
    cases run
    exact .refl _
  | cons i rest ih =>
    obtain ⟨between, hi, hrest⟩ := Option.bind_eq_some_iff.mp run
    have hstep := State.Reaches.of_step (step_of_effect hp.getElem? hi)
    have hlater := ih hp.tail hrest
    rw [Nat.add_assoc, Nat.add_comm 1] at hlater
    exact hstep.trans hlater

theorem Leads.stopsWithin {a b : Point} (leads : program.Leads oracle a b) {scratch : Scratch}
    {n : Nat} (stops : (a.state scratch).StopsWithin oracle program n) :
    ∃ scratch', (b.state scratch').StopsWithin oracle program n := by
  obtain ⟨scratch', reaches⟩ := leads scratch
  exact ⟨scratch', stops.of_reaches reaches⟩

theorem Runs.leads {p : Program} {s s' : Store} {stack stack' : List Word}
    (runs : p.Runs oracle s stack s' stack') {pc : Nat} (hp : program.HasAt pc p) :
    program.Leads oracle ⟨pc, s, stack⟩ ⟨pc + p.length, s', stack'⟩ := by
  intro scratch
  obtain ⟨scratch', hrun⟩ := runs scratch
  exact ⟨scratch', reaches_of_execute hp hrun⟩

end Program

end Jack
