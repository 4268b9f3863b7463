import Jack.Proofs.Statement.Execution
import Jack.Proofs.Statement.Shape
import Jack.Proofs.Vm.Height

/-! Heights in the code of statements. The code of an expression leaves one word on the stack and
the code of a statement none, so the stack is empty wherever a statement begins or ends. -/

namespace Jack

open Code

variable {scope : Scope}

/-- Code that leaves `n` words in place of the `m` uppermost ones. -/
def Program.Replaces (p : Program) (m n : Nat) : Prop := ∀ h, p.height? (h + m) = some (h + n)

namespace Program.Replaces

variable {p q : Program} {k m n : Nat}

theorem refl (n : Nat) : Replaces [] n n := fun _ => rfl

theorem append (hp : p.Replaces k m) (hq : q.Replaces m n) : (p ++ q).Replaces k n := by
  intro h
  rw [height?_append, hp, Option.bind_some, hq]

/-- What lies below does not matter. -/
theorem above (hp : p.Replaces m n) (k : Nat) : p.Replaces (k + m) (k + n) := by
  intro h
  rw [← Nat.add_assoc, ← Nat.add_assoc, hp]

theorem push (segment : Segment) (index : UInt32) : Replaces [.push segment index] 0 1 :=
  fun _ => rfl

theorem call (name : String) {arguments : UInt32} (hn : arguments.toNat = n) :
    Replaces [.call name arguments] n 1 := by
  intro h
  rw [height?_cons, Instruction.height?_call hn]
  rfl

end Program.Replaces

open Program.Replaces

theorem replaces_stringCode (text : String) : (stringCode text).Replaces 0 1 := by
  have hnew : Program.Replaces
      [.push .constant (UInt32.ofNat text.length), .call "String.new" 1] 0 1 :=
    (push .constant _).append (call "String.new" rfl)
  have hchar (c : Char) :
      Program.Replaces [.push .constant c.val, .call "String.appendChar" 2] 1 1 :=
    ((push .constant c.val).above 1).append (call "String.appendChar" rfl)
  have hchars (cs : List Char) : Program.Replaces
      (cs.flatMap fun c => [.push .constant c.val, .call "String.appendChar" 2]) 1 1 := by
    induction cs with
    | nil => exact refl 1
    | cons c cs ih => exact (hchar c).append ih
  exact hnew.append (hchars text.toList)

theorem UnaryOp.replaces_instruction (op : UnaryOp) : Program.Replaces [op.instruction] 1 1 := by
  intro h
  cases op <;> simp [instruction]

theorem BinaryOp.replaces_instruction (op : BinaryOp) :
    Program.Replaces [op.instruction] 2 1 := by
  cases op
  case multiply => exact call "Math.multiply" rfl
  case divide => exact call "Math.divide" rfl
  all_goals
    intro h
    simp [instruction, Instruction.height?, Instruction.pops, Instruction.clears,
      Instruction.pushes]

theorem Constant.replaces_code (c : Constant) : c.code.Replaces 0 1 := by
  intro h
  cases c <;> simp [code]

theorem Scope.replaces_dispatch (scope : Scope) (receiver : Option String) :
    (scope.dispatch receiver).1.Replaces 0 (scope.dispatch receiver).1.length := by
  unfold dispatch
  cases receiver with
  | none => exact push _ _
  | some name =>
    cases hv : scope.lookup name with
    | none =>
      simp only [hv]
      exact refl 0
    | some v =>
      simp only [hv]
      exact push _ _

theorem Expression.replaces_cases : CodeInduction scope
    (fun e p => e.callsFit → p.Replaces 0 1) (fun t p => t.callsFit → p.Replaces 0 1)
    (fun c p => c.callsFit → p.Replaces 0 1)
    (fun es p => listCallsFit es → p.Replaces 0 es.length) where
  term ht := ht
  binary {_ op _ _ _} hp hq fits := by
    rw [callsFit, Bool.and_eq_true] at fits
    exact ((hp fits.1).append ((hq fits.2).above 1)).append op.replaces_instruction
  integer _ := push _ _
  string _ := replaces_stringCode _
  constant _ := Constant.replaces_code _
  read _ _ := push _ _
  element _ hp fits := by
    refine ((push _ _).append ((hp fits).above 1)).append fun h => ?_
    simp
  parenthesized hp := hp
  unary {op _ _} hp fits := (hp fits).append op.replaces_instruction
  call hp := hp
  arguments {receiver name es p} hp fits := by
    rw [Call.callsFit, Bool.and_eq_true, decide_eq_true_eq] at fits
    have hobject := scope.replaces_dispatch receiver
    have hone := scope.length_dispatch_le receiver
    refine (hobject.append ((hp fits.2).above _)).append (call _ ?_)
    rw [UInt32.toNat_ofNat', Nat.mod_eq_of_lt (by omega), Nat.add_comm]
  nil _ := refl 0
  cons {first others p q} hp hq fits := by
    rw [listCallsFit, Bool.and_eq_true] at fits
    rw [List.length_cons, Nat.add_comm]
    exact (hp fits.1).append ((hq fits.2).above 1)

theorem Expression.replaces_code {e : Expression} {p : Program} (h : e.code scope = .ok p)
    (fits : e.callsFit) : p.Replaces 0 1 := replaces_cases.code e h fits

theorem Call.replaces_code {c : Call} {p : Program} (h : c.code scope = .ok p)
    (fits : c.callsFit) : p.Replaces 0 1 := Expression.replaces_cases.callCode c h fits

namespace Statement

theorem height?_cases : CodeInduction scope (fun s _ p => s.callsFit → p.height? 0 = some 0)
    (fun ss _ p => listCallsFit ss → p.height? 0 = some 0) where
  assign _ hq fits := by
    have hvalue := Expression.replaces_code hq fits 0
    simp [Program.height?_append, hvalue, Variable.pop]
  assignElement {_ _ _ _ v _ _} _ hq hr fits := by
    rw [callsFit, Bool.and_eq_true] at fits
    have hindex := Expression.replaces_code hq fits.1 1
    have hvalue := Expression.replaces_code hr fits.2 1
    simp [Program.height?_append, hindex, hvalue, Variable.push, storeElement]
  conditional hc _ ht he fits := by
    obtain ⟨hcondition, hthen, helse⟩ := callsFit_if fits
    have hvalue := Expression.replaces_code hc hcondition 0
    simp [Program.height?_append, hvalue, ht hthen, he helse]
  loop hc hb fits := by
    obtain ⟨hcondition, hbody⟩ := callsFit_while fits
    have hvalue := Expression.replaces_code hc hcondition 0
    simp [Program.height?_append, hvalue, hb hbody]
  call hq fits := by
    have hcall := Call.replaces_code hq fits 0
    simp [Program.height?_append, hcall]
  returnNone _ := rfl
  returnSome hq fits := by
    have hvalue := Expression.replaces_code hq fits 0
    simp [Program.height?_append, hvalue]
  nil _ := rfl
  cons _ hfirst hothers fits := by
    rw [listCallsFit, Bool.and_eq_true] at fits
    rw [Program.height?_append, hfirst fits.1, Option.bind_some, hothers fits.2]

/-- A statement in the code of other statements: the code in front of it, and what comes before
its labels. -/
structure Place where
  front : Program
  statement : Statement
  before : LabelCount

def Place.behind (front : Program) (place : Place) : Place :=
  { place with front := front ++ place.front }

/-- The code of a part, where it is known that there is one. -/
def made (c : Code) : Program := c.toOption.getD []

mutual

/-- The statements inside a statement, in the order of the text. -/
def inside (scope : Scope) (before : LabelCount) : Statement → List Place
  | .let _ _ _ | .do _ | .return _ => []
  | .if condition thenBody elseBody =>
    let onFalse := labelName scope.className .ifFalse before.ifs
    let atEnd := labelName scope.className .ifEnd before.ifs
    let test := made (condition.code scope) ++ [.arithmetic .not, .ifGoto onFalse]
    let skip := test ++ made (listCode scope (before + ⟨1, 0⟩) thenBody) ++
      [.goto atEnd, .label onFalse]
    (listPlaces scope (before + ⟨1, 0⟩) thenBody).map (.behind test) ++
      match elseBody with
      | none => []
      | some body =>
        (listPlaces scope (before + ⟨1, 0⟩ + listLabels thenBody) body).map (.behind skip)
  | .while condition body =>
    let start := labelName scope.className .whileStart before.whiles
    let atEnd := labelName scope.className .whileEnd before.whiles
    let test := [.label start] ++ made (condition.code scope) ++
      [.arithmetic .not, .ifGoto atEnd]
    (listPlaces scope (before + ⟨0, 1⟩) body).map (.behind test)

/-- The statements of a list and those inside them. -/
def listPlaces (scope : Scope) (before : LabelCount) : List Statement → List Place
  | [] => []
  | first :: others =>
    ⟨[], first, before⟩ :: (first.inside scope before ++
      (listPlaces scope (before + first.labels) others).map
        (.behind (made (first.code scope before))))

end

theorem inside_if (condition : Expression) (thenBody : List Statement)
    (elseBody : Option (List Statement)) (before : LabelCount) :
    let onFalse := labelName scope.className .ifFalse before.ifs
    let atEnd := labelName scope.className .ifEnd before.ifs
    let test := made (condition.code scope) ++ [.arithmetic .not, .ifGoto onFalse]
    let skip := test ++ made (listCode scope (before + ⟨1, 0⟩) thenBody) ++
      [.goto atEnd, .label onFalse]
    inside scope before (.if condition thenBody elseBody) =
      (listPlaces scope (before + ⟨1, 0⟩) thenBody).map (.behind test) ++
        (listPlaces scope (before + ⟨1, 0⟩ + listLabels thenBody) (elseBody.getD [])).map
          (.behind skip) := by
  cases elseBody <;> rfl

/-- The code of the statement is found behind its front, and the stack is empty where it begins
and where it ends. -/
def Place.Level (scope : Scope) (p : Program) (place : Place) : Prop :=
  ∃ code after, place.statement.code scope place.before = .ok code ∧
    p = place.front ++ code ++ after ∧ place.front.height? 0 = some 0 ∧ code.height? 0 = some 0

theorem Place.Level.within {p whole front : Program} {place : Place}
    (level : place.Level scope p) (hwhole : front ++ p <+: whole)
    (hfront : front.height? 0 = some 0) : (place.behind front).Level scope whole := by
  obtain ⟨code, rest, hcode, rfl, hplace, hheight⟩ := level
  obtain ⟨after, rfl⟩ := hwhole
  refine ⟨code, rest ++ after, hcode, ?_, ?_, hheight⟩
  · simp [Place.behind]
  · rw [Place.behind, Program.height?_append, hfront, Option.bind_some, hplace]

theorem level_cases : CodeInduction scope
    (fun s before p => s.callsFit → ∀ place ∈ s.inside scope before, place.Level scope p)
    (fun ss before p =>
      listCallsFit ss → ∀ place ∈ listPlaces scope before ss, place.Level scope p) where
  assign _ _ _ _ h := absurd h List.not_mem_nil
  assignElement _ _ _ _ _ h := absurd h List.not_mem_nil
  conditional {before condition thenBody elseBody c t e} hc ht hthen helse fits := by
    obtain ⟨hcondition, hthenFits, helseFits⟩ := callsFit_if fits
    have hvalue := Expression.replaces_code hc hcondition 0
    have hheight := height?_cases.listCode _ ht hthenFits
    have hmade : made (condition.code scope) = c := by rw [hc]; rfl
    have hmade' : made (listCode scope (before + ⟨1, 0⟩) thenBody) = t := by rw [ht]; rfl
    rw [inside_if, hmade, hmade', List.forall_mem_append, List.forall_mem_map, List.forall_mem_map]
    constructor
    · intro place hplace
      refine (hthen hthenFits place hplace).within (by simp) ?_
      simp [Program.height?_append, hvalue]
    · intro place hplace
      refine (helse helseFits place hplace).within (by simp) ?_
      simp [Program.height?_append, hvalue, hheight]
  loop {before condition body c b} hc hb fits := by
    obtain ⟨hcondition, hbody⟩ := callsFit_while fits
    have hvalue := Expression.replaces_code hc hcondition 0
    have hmade : made (condition.code scope) = c := by rw [hc]; rfl
    rw [inside, hmade, List.forall_mem_map]
    intro place hplace
    refine (hb hbody place hplace).within (by simp) ?_
    simp [Program.height?_append, hvalue]
  call _ _ _ h := absurd h List.not_mem_nil
  returnNone _ _ h := absurd h List.not_mem_nil
  returnSome _ _ _ h := absurd h List.not_mem_nil
  nil _ _ h := absurd h List.not_mem_nil
  cons {before first others q r} hq hfirst hothers fits := by
    rw [listCallsFit, Bool.and_eq_true] at fits
    have hheight := height?_cases.code first hq fits.1
    have hmade : made (first.code scope before) = q := by rw [hq]; rfl
    rw [listPlaces, hmade, List.forall_mem_cons, List.forall_mem_append, List.forall_mem_map]
    refine ⟨⟨q, r, hq, rfl, rfl, hheight⟩, fun place hplace => ?_, fun place hplace => ?_⟩
    · show (place.behind []).Level scope (q ++ r)
      exact (hfirst fits.1 place hplace).within (List.prefix_append _ _) rfl
    · exact (hothers fits.2 place hplace).within List.prefix_rfl hheight

end Statement

end Jack
