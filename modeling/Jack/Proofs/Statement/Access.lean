import Jack.Proofs.Statement.Origin

/-! What the code of statements does to the segments that hold variables: it reads and writes slots
of variables that the statements name, and nothing else there. A name is never `this`, which is a
keyword, so the receiver of a method is out of reach, and no statement moves the object at hand. -/

namespace Jack

/-- The segments that hold the variables of a program. The others are for constants and for the
addresses and values that the code itself puts aside. -/
def Segment.holdsVariables : Segment → Bool
  | .argument | .local | .static | .this => true
  | .constant | .that | .pointer | .temp => false

/-- The place that an instruction reads or writes. -/
def Instruction.slot? : Instruction → Option (Segment × UInt32)
  | push segment index | pop segment index => some (segment, index)
  | _ => none

variable {scope : Scope} {ts : List Token}

/-- The instruction leaves pointer 0 alone, and a variable's slot that it uses is that of a variable
with a name other than `this`. -/
structure Instruction.Keeps (scope : Scope) (i : Instruction) : Prop where
  object : i ≠ .pop .pointer 0
  named : ∀ segment index, i.slot? = some (segment, index) → segment.holdsVariables →
    ∃ name v, name ≠ "this" ∧ scope.lookup name = some v ∧ v.segment = segment ∧ v.index = index

theorem Instruction.Keeps.of_slot {i : Instruction} (object : i ≠ .pop .pointer 0)
    (scratch : ∀ slot ∈ i.slot?, slot.1.holdsVariables = false) : i.Keeps scope where
  object := object
  named segment index hslot hvariable := by
    rw [scratch (segment, index) hslot] at hvariable
    cases hvariable

theorem Segment.not_holdsVariables_of_isScratch {segment : Segment} (h : segment.isScratch) :
    segment.holdsVariables = false := by
  cases segment <;> first | rfl | cases h

theorem Variable.segment_ne_pointer (v : Variable) : v.segment ≠ .pointer := by
  unfold Variable.segment
  cases v.kind <;> exact Segment.noConfusion

theorem Variable.keeps_push {name : String} {v : Variable} (hname : name ≠ "this")
    (hv : scope.lookup name = some v) : v.push.Keeps scope where
  object := Instruction.noConfusion
  named := by
    rintro segment index ⟨⟩ -
    exact ⟨name, v, hname, hv, rfl, rfl⟩

theorem Variable.keeps_pop {name : String} {v : Variable} (hname : name ≠ "this")
    (hv : scope.lookup name = some v) : v.pop.Keeps scope where
  object h := by
    have hsegment : v.segment = .pointer := (Instruction.pop.inj h).1
    exact v.segment_ne_pointer hsegment
  named := by
    rintro segment index ⟨⟩ -
    exact ⟨name, v, hname, hv, rfl, rfl⟩

/-- No name among the tokens is `this`. -/
def Unreserved (ts : List Token) : Prop := .identifier "this" ∉ ts

theorem Instruction.ComesFrom.keeps (free : Unreserved ts) {i : Instruction}
    (h : i.ComesFrom scope ts) : i.Keeps scope := by
  have hname {name : String} (hmem : .identifier name ∈ ts) : name ≠ "this" := by
    rintro rfl
    exact free hmem
  cases h with
  | read hmem hv => exact Variable.keeps_push (hname hmem) hv
  | write hmem hv => exact Variable.keeps_pop (hname hmem) hv
  | integer | length | character | zero =>
    refine .of_slot Instruction.noConfusion ?_
    rintro slot ⟨⟩
    rfl
  | load hscratch =>
    refine .of_slot Instruction.noConfusion ?_
    rintro slot ⟨⟩
    exact Segment.not_holdsVariables_of_isScratch hscratch
  | store hscratch hobject =>
    refine .of_slot (fun hpop => ?_) ?_
    · cases hpop
      exact hobject rfl
    · rintro slot ⟨⟩
      exact Segment.not_holdsVariables_of_isScratch hscratch
  | _ =>
    refine .of_slot Instruction.noConfusion ?_
    rintro slot ⟨⟩

def Program.Keeps (scope : Scope) (p : Program) : Prop := ∀ i ∈ p, i.Keeps scope

theorem Statement.keeps_listCode {ss : List Statement} {before : LabelCount} {p : Program}
    (h : listCode scope before ss = .ok p) (free : Unreserved (listTokens ss)) : p.Keeps scope :=
  fun i hi => (comesFrom_listCode h i hi).keeps free

end Jack
