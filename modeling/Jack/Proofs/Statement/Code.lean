import Jack.Proofs.Expression.Code
import Jack.Proofs.Statement.Execution
import Jack.Proofs.Statement.Shape

/-! Code of statements does what the statements do. In a program without repeated labels, a run
that enters the code of a statement ends as the statement ends: after the code, with the stack
as it was, or at a `return` with the value on top. -/

namespace Jack

variable {oracle : Oracle} {scope : Scope} {program : Program}

/-- A run from `start` comes to `finish` if the next statement follows, and otherwise to a
`return`, with the returned value above the stack of the start. -/
def Program.Ends (oracle : Oracle) (program : Program) (start : Point) (finish : Nat) :
    Outcome → Prop
  | .next s => program.Leads oracle start ⟨finish, s, start.stack⟩
  | .returned w s =>
    ∃ pc, program[pc]? = some .return ∧ program.Leads oracle start ⟨pc, s, w :: start.stack⟩

namespace Program

theorem Ends.after {start mid : Point} {finish : Nat} {o : Outcome}
    (ends : program.Ends oracle mid finish o) (leads : program.Leads oracle start mid)
    (hstack : mid.stack = start.stack) : program.Ends oracle start finish o := by
  cases o with
  | next s =>
    rw [Ends, hstack] at ends
    exact leads.trans ends
  | returned w s =>
    obtain ⟨pc, hpc, hleads⟩ := ends
    rw [hstack] at hleads
    exact ⟨pc, hpc, leads.trans hleads⟩

/-- Labels and jumps alone take a run from `pc` to `pc'`. -/
def Passes (oracle : Oracle) (program : Program) (pc pc' : Nat) : Prop :=
  ∀ s stack, program.Leads oracle ⟨pc, s, stack⟩ ⟨pc', s, stack⟩

theorem Passes.trans {pc pc' pc'' : Nat} (first : program.Passes oracle pc pc')
    (second : program.Passes oracle pc' pc'') : program.Passes oracle pc pc'' :=
  fun s stack => (first s stack).trans (second s stack)

theorem Ends.move {start : Point} {mid finish : Nat} {o : Outcome}
    (ends : program.Ends oracle start mid o) (passes : program.Passes oracle mid finish) :
    program.Ends oracle start finish o := by
  cases o with
  | next s => exact Leads.trans ends (passes s _)
  | returned w s => exact ends

theorem passes_label {pc : Nat} {name : String} (h : program[pc]? = some (.label name)) :
    program.Passes oracle pc (pc + 1) :=
  fun _ _ scratch => ⟨scratch, .of_step (step_of_effect h rfl)⟩

theorem passes_goto {pc target : Nat} {name : String} (h : program[pc]? = some (.goto name))
    (htarget : program.position name = some target) : program.Passes oracle pc target := by
  intro s stack scratch
  refine ⟨scratch, .of_step ?_⟩
  simp only [State.step, Point.state, h, htarget, Option.map_some]

theorem leads_ifGoto_zero {pc : Nat} {name : String} (h : program[pc]? = some (.ifGoto name))
    (s : Store) (stack : List Word) :
    program.Leads oracle ⟨pc, s, 0 :: stack⟩ ⟨pc + 1, s, stack⟩ := by
  intro scratch
  refine ⟨scratch, .of_step ?_⟩
  simp only [State.step, Point.state, h, if_true, Option.map_some]

theorem leads_ifGoto_ne_zero {pc target : Nat} {name : String}
    (h : program[pc]? = some (.ifGoto name)) (htarget : program.position name = some target)
    {w : Word} (hw : w ≠ 0) (s : Store) (stack : List Word) :
    program.Leads oracle ⟨pc, s, w :: stack⟩ ⟨target, s, stack⟩ := by
  intro scratch
  refine ⟨scratch, .of_step ?_⟩
  simp only [State.step, Point.state, h, htarget, if_neg hw, Option.map_some]

end Program

theorem Word.not_ne_zero {w : Word} (h : w ≠ BitVec.allOnes 16) : ~~~w ≠ 0 := by
  intro hzero
  apply h
  rw [← BitVec.not_not (b := w), hzero]
  rfl

/-- A run that enters a test of the condition at `pc` goes on at `yes` if it holds, else at
`no`. -/
structure Expression.Tests (oracle : Oracle) (scope : Scope) (program : Program)
    (condition : Expression) (pc yes no : Nat) : Prop where
  holds : ∀ {s memory}, condition.eval oracle scope s = some (BitVec.allOnes 16, memory) →
    ∀ stack, program.Leads oracle ⟨pc, s, stack⟩ ⟨yes, s.withMemory memory, stack⟩
  fails : ∀ {s w memory}, condition.eval oracle scope s = some (w, memory) →
    w ≠ BitVec.allOnes 16 →
    ∀ stack, program.Leads oracle ⟨pc, s, stack⟩ ⟨no, s.withMemory memory, stack⟩

theorem Expression.tests_of_code {condition : Expression} {c : Program} {name : String}
    {pc target no : Nat} (hc : condition.code scope = .ok c) (fits : condition.callsFit)
    (hp : program.HasAt pc (c ++ [.arithmetic .not, .ifGoto name]))
    (htarget : program.position name = some target) (hno : program.Passes oracle target no) :
    condition.Tests oracle scope program pc (pc + c.length + 2) no := by
  have hnot {s w memory} (heval : condition.eval oracle scope s = some (w, memory))
      (stack : List Word) : program.Leads oracle ⟨pc, s, stack⟩
        ⟨pc + c.length + 1, s.withMemory memory, ~~~w :: stack⟩ := by
    have hvalue := ((Expression.code_computes oracle _ hc fits).runs heval stack).leads hp.left
    have hrun : Program.Runs oracle [.arithmetic .not] (s.withMemory memory) (w :: stack)
        (s.withMemory memory) (~~~w :: stack) := fun scratch => ⟨scratch, rfl⟩
    exact hvalue.trans (hrun.leads hp.right.head)
  have hjump := hp.right.tail.getElem?
  constructor
  · intro s memory heval stack
    exact (hnot heval stack).trans (Program.leads_ifGoto_zero hjump _ _)
  · intro s w memory heval hw stack
    have htaken : program.Leads oracle ⟨_, s.withMemory memory, ~~~w :: stack⟩ ⟨target, _, _⟩ :=
      Program.leads_ifGoto_ne_zero hjump htarget (Word.not_ne_zero hw) _ _
    exact ((hnot heval stack).trans htaken).trans (hno _ _)

theorem Variable.runs_pop (v : Variable) (s : Store) (w : Word) (stack : List Word) :
    Program.Runs oracle [v.pop] s (w :: stack) (v.write s w) stack := by
  intro scratch
  refine ⟨scratch, ?_⟩
  unfold Variable.pop Variable.segment Variable.write
  cases v.kind <;> rfl

theorem Statement.runs_storeElement (oracle : Oracle) (s : Store) (address w : Word)
    (stack : List Word) : Statement.storeElement.Runs oracle s (w :: address :: stack)
      (s.writeHeap address w) stack := by
  intro scratch
  refine ⟨⟨address, Function.update scratch.temp 0 w⟩, ?_⟩
  simp [Statement.storeElement, Program.execute, Instruction.effect, Machine.write, Machine.read,
    Word.ofOperand]

namespace Statement

open Code

/-- Wherever the code of the statement stands in the program, a run that enters it with the store
`s` ends with the outcome `o`. -/
def Simulates (oracle : Oracle) (scope : Scope) (program : Program) (stmt : Statement) (s : Store)
    (o : Outcome) : Prop :=
  ∀ {before : LabelCount} {p : Program} {pc : Nat}, stmt.callsFit →
    stmt.code scope before = .ok p → program.HasAt pc p →
      ∀ stack, program.Ends oracle ⟨pc, s, stack⟩ (pc + p.length) o

def ListSimulates (oracle : Oracle) (scope : Scope) (program : Program) (ss : List Statement)
    (s : Store) (o : Outcome) : Prop :=
  ∀ {before : LabelCount} {p : Program} {pc : Nat}, listCallsFit ss →
    listCode scope before ss = .ok p → program.HasAt pc p →
      ∀ stack, program.Ends oracle ⟨pc, s, stack⟩ (pc + p.length) o

/-- How the parts of a conditional lie in a program. -/
theorem if_layout (oracle : Oracle) (unique : program.labels.Nodup) {condition : Expression}
    {thenBody : List Statement} {elseBody : Option (List Statement)} {before : LabelCount}
    {p : Program} {pc : Nat} (fits : condition.callsFit)
    (h : code scope before (.if condition thenBody elseBody) = .ok p)
    (hp : program.HasAt pc p) :
    ∃ yes no t e, condition.Tests oracle scope program pc yes no ∧
      listCode scope (before + ⟨1, 0⟩) thenBody = .ok t ∧ program.HasAt yes t ∧
      program.Passes oracle (yes + t.length) (pc + p.length) ∧
      listCode scope (before + ⟨1, 0⟩ + listLabels thenBody) (elseBody.getD []) = .ok e ∧
      program.HasAt no e ∧ program.Passes oracle (no + e.length) (pc + p.length) := by
  obtain ⟨c, t, e, hc, ht, he, rfl⟩ := code_if h
  have hyes := hp.left.left.left.right
  have hjump := hp.left.left.right
  have hno := hp.left.right
  have hend := hp.right
  simp only [List.length_append, List.length_cons, List.length_nil, Nat.zero_add,
    Nat.reduceAdd, ← Nat.add_assoc] at hyes hjump hno hend ⊢
  -- the label that a false condition jumps to stands right behind the jump over the else part
  have hfalse : program.HasAt _ [_] := hjump.tail
  have hposition := Program.position_of_hasAt unique hend
  refine ⟨_, _, t, e, Expression.tests_of_code hc fits hp.left.left.left.left
    (Program.position_of_hasAt unique hfalse) (Program.passes_label hfalse.getElem?), ht, hyes,
    ?_, he, hno, Program.passes_label hend.getElem?⟩
  exact (Program.passes_goto hjump.getElem? hposition).trans (Program.passes_label hend.getElem?)

/-- How the parts of a loop lie in a program. -/
theorem while_layout (oracle : Oracle) (unique : program.labels.Nodup) {condition : Expression}
    {body : List Statement} {before : LabelCount} {p : Program} {pc : Nat}
    (fits : condition.callsFit) (h : code scope before (.while condition body) = .ok p)
    (hp : program.HasAt pc p) :
    ∃ yes b, condition.Tests oracle scope program (pc + 1) yes (pc + p.length) ∧
      program[pc]? = some (.label (labelName scope.className .whileStart before.whiles)) ∧
      listCode scope (before + ⟨0, 1⟩) body = .ok b ∧ program.HasAt yes b ∧
      program.Passes oracle (yes + b.length) pc := by
  obtain ⟨c, b, hc, hb, rfl⟩ := code_while h
  have hstart := hp.left.left.left.left
  have htest := hp.left.left
  have hbody := hp.left.right
  have hback := hp.right
  -- the label in front of the test is taken off
  rw [List.append_assoc] at htest
  have htest := htest.right
  simp only [List.length_append, List.length_cons, List.length_nil, Nat.zero_add,
    Nat.reduceAdd, ← Nat.add_assoc] at htest hbody hback ⊢
  have hend : program.HasAt _ [_] := hback.tail
  exact ⟨_, b, Expression.tests_of_code hc fits htest (Program.position_of_hasAt unique hend)
    (Program.passes_label hend.getElem?), hstart.getElem?, hb, hbody,
    Program.passes_goto hback.getElem? (Program.position_of_hasAt unique hstart)⟩

/-! One lemma for each rule of execution. -/

theorem simulates_assign {target : String} {value : Expression} {v : Variable} {s : Store}
    {w : Word} {memory : Memory} (declared : scope.lookup target = some v)
    (evaluated : value.eval oracle scope s = some (w, memory)) :
    Simulates oracle scope program (.let target none value) s
      (.next (v.write (s.withMemory memory) w)) := by
  intro before p pc fits h hp stack
  obtain ⟨v, q, hv, hq, rfl⟩ := code_assign h
  rw [declared, Option.some.injEq] at hv
  subst hv
  have hvalue := (Expression.code_computes oracle _ hq fits).runs evaluated stack
  exact (hvalue.append (v.runs_pop _ w stack)).leads hp

theorem simulates_assignElement {array : String} {index value : Expression} {v : Variable}
    {s : Store} {i w : Word} {between memory : Memory} (declared : scope.lookup array = some v)
    (indexed : index.eval oracle scope s = some (i, between))
    (evaluated : value.eval oracle scope (s.withMemory between) = some (w, memory)) :
    Simulates oracle scope program (.let array (some index) value) s
      (.next ((s.withMemory memory).writeHeap (v.read s + i) w)) := by
  intro before p pc fits h hp stack
  obtain ⟨v, q, r, hv, hq, hr, rfl⟩ := code_assignElement h
  rw [declared, Option.some.injEq] at hv
  subst hv
  rw [callsFit, Bool.and_eq_true] at fits
  have harray := v.runs_push oracle s stack
  have hindex := (Expression.code_computes oracle _ hq fits.1).runs indexed (v.read s :: stack)
  have hadd : Program.Runs oracle [.arithmetic .add] (s.withMemory between)
      (i :: v.read s :: stack) (s.withMemory between) ((v.read s + i) :: stack) :=
    fun scratch => ⟨scratch, rfl⟩
  have hvalue := (Expression.code_computes oracle _ hr fits.2).runs evaluated
    ((v.read s + i) :: stack)
  have hstore := runs_storeElement oracle (s.withMemory memory) (v.read s + i) w stack
  exact ((((harray.append hindex).append hadd).append hvalue).append hstore).leads hp

theorem simulates_ifTrue (unique : program.labels.Nodup) {condition : Expression}
    {thenBody : List Statement} {elseBody : Option (List Statement)} {s : Store}
    {memory : Memory} {o : Outcome}
    (holds : condition.eval oracle scope s = some (BitVec.allOnes 16, memory))
    (body : ListSimulates oracle scope program thenBody (s.withMemory memory) o) :
    Simulates oracle scope program (.if condition thenBody elseBody) s o := by
  intro before p pc fits h hp stack
  obtain ⟨hcondition, hthen, -⟩ := callsFit_if fits
  obtain ⟨yes, no, t, e, htest, ht, hyes, hend, -⟩ := if_layout oracle unique hcondition h hp
  exact ((body hthen ht hyes stack).move hend).after (htest.holds holds stack) rfl

theorem simulates_ifFalse (unique : program.labels.Nodup) {condition : Expression}
    {thenBody : List Statement} {elseBody : Option (List Statement)} {s : Store} {w : Word}
    {memory : Memory} {o : Outcome}
    (evaluated : condition.eval oracle scope s = some (w, memory)) (fails : w ≠ BitVec.allOnes 16)
    (body : ListSimulates oracle scope program (elseBody.getD []) (s.withMemory memory) o) :
    Simulates oracle scope program (.if condition thenBody elseBody) s o := by
  intro before p pc fits h hp stack
  obtain ⟨hcondition, -, helse⟩ := callsFit_if fits
  obtain ⟨yes, no, t, e, htest, -, -, -, he, hno, hend⟩ :=
    if_layout oracle unique hcondition h hp
  exact ((body helse he hno stack).move hend).after (htest.fails evaluated fails stack) rfl

theorem simulates_whileTrue (unique : program.labels.Nodup) {condition : Expression}
    {body : List Statement} {s s' : Store} {memory : Memory} {o : Outcome}
    (holds : condition.eval oracle scope s = some (BitVec.allOnes 16, memory))
    (once : ListSimulates oracle scope program body (s.withMemory memory) (.next s'))
    (again : Simulates oracle scope program (.while condition body) s' o) :
    Simulates oracle scope program (.while condition body) s o := by
  intro before p pc fits h hp stack
  obtain ⟨hcondition, hbody⟩ := callsFit_while fits
  obtain ⟨yes, b, htest, hlabel, hb, hyes, hback⟩ := while_layout oracle unique hcondition h hp
  have henter := (Program.passes_label hlabel s stack).trans (htest.holds holds stack)
  have honce := Program.Leads.trans (once hbody hb hyes stack) (hback s' stack)
  exact (again fits h hp stack).after (henter.trans honce) rfl

theorem simulates_whileReturned (unique : program.labels.Nodup) {condition : Expression}
    {body : List Statement} {s s' : Store} {memory : Memory} {w : Word}
    (holds : condition.eval oracle scope s = some (BitVec.allOnes 16, memory))
    (once : ListSimulates oracle scope program body (s.withMemory memory) (.returned w s')) :
    Simulates oracle scope program (.while condition body) s (.returned w s') := by
  intro before p pc fits h hp stack
  obtain ⟨hcondition, hbody⟩ := callsFit_while fits
  obtain ⟨yes, b, htest, hlabel, hb, hyes, -⟩ := while_layout oracle unique hcondition h hp
  have henter := (Program.passes_label hlabel s stack).trans (htest.holds holds stack)
  have honce := (once hbody hb hyes stack).after henter rfl
  exact honce

theorem simulates_whileFalse (unique : program.labels.Nodup) {condition : Expression}
    {body : List Statement} {s : Store} {w : Word} {memory : Memory}
    (evaluated : condition.eval oracle scope s = some (w, memory))
    (fails : w ≠ BitVec.allOnes 16) :
    Simulates oracle scope program (.while condition body) s (.next (s.withMemory memory)) := by
  intro before p pc fits h hp stack
  obtain ⟨hcondition, -⟩ := callsFit_while fits
  obtain ⟨yes, b, htest, hlabel, -⟩ := while_layout oracle unique hcondition h hp
  exact (Program.passes_label hlabel s stack).trans (htest.fails evaluated fails stack)

theorem simulates_discard {target : Call} {s : Store} {w : Word} {memory : Memory}
    (evaluated : target.eval oracle scope s = some (w, memory)) :
    Simulates oracle scope program (.do target) s (.next (s.withMemory memory)) := by
  intro before p pc fits h hp stack
  obtain ⟨q, hq, rfl⟩ := code_do h
  have hcall := (Call.code_computes oracle target hq fits).runs evaluated stack
  have hpop : Program.Runs oracle [.pop .temp 0] (s.withMemory memory) (w :: stack)
      (s.withMemory memory) stack :=
    fun scratch => ⟨{ scratch with temp := Function.update scratch.temp 0 w }, rfl⟩
  exact (hcall.append hpop).leads hp

theorem simulates_returnValue {value : Expression} {s : Store} {w : Word} {memory : Memory}
    (evaluated : value.eval oracle scope s = some (w, memory)) :
    Simulates oracle scope program (.return (some value)) s
      (.returned w (s.withMemory memory)) := by
  intro before p pc fits h hp stack
  obtain ⟨q, hq, rfl⟩ := code_return_some h
  have hvalue := (Expression.code_computes oracle value hq fits).runs evaluated stack
  exact ⟨_, hp.right.getElem?, hvalue.leads hp.left⟩

theorem simulates_returnNothing {s : Store} :
    Simulates oracle scope program (.return none) s (.returned 0 s) := by
  intro before p pc fits h hp stack
  rw [code_return_none h] at hp
  have hzero : Program.Runs oracle [.push .constant 0] s stack s (0 :: stack) :=
    fun scratch => ⟨scratch, rfl⟩
  exact ⟨_, (hp.tail).getElem?,
    hzero.leads (hp.head)⟩

theorem listSimulates_nil {s : Store} : ListSimulates oracle scope program [] s (.next s) := by
  intro before p pc fits h hp stack
  rw [listCode_nil h]
  exact Program.Leads.refl _

theorem listSimulates_cons {first : Statement} {others : List Statement} {s s' : Store}
    {o : Outcome} (head : Simulates oracle scope program first s (.next s'))
    (tail : ListSimulates oracle scope program others s' o) :
    ListSimulates oracle scope program (first :: others) s o := by
  intro before p pc fits h hp stack
  obtain ⟨q, r, hq, hr, rfl⟩ := listCode_cons h
  rw [listCallsFit, Bool.and_eq_true] at fits
  rw [List.length_append, ← Nat.add_assoc]
  exact (tail fits.2 hr hp.right stack).after (head fits.1 hq hp.left stack) rfl

theorem listSimulates_returned {first : Statement} {others : List Statement} {s s' : Store}
    {w : Word} (head : Simulates oracle scope program first s (.returned w s')) :
    ListSimulates oracle scope program (first :: others) s (.returned w s') := by
  intro before p pc fits h hp stack
  obtain ⟨q, r, hq, hr, rfl⟩ := listCode_cons h
  rw [listCallsFit, Bool.and_eq_true] at fits
  exact head fits.1 hq hp.left stack

theorem ListExec.simulates (unique : program.labels.Nodup) {ss : List Statement} {s : Store}
    {o : Outcome} (exec : ListExec oracle scope ss s o) :
    ListSimulates oracle scope program ss s o :=
  -- one case for each rule, in the order in which the rules are given
  @ListExec.rec oracle scope (fun stmt s o _ => Simulates oracle scope program stmt s o)
    (fun ss s o _ => ListSimulates oracle scope program ss s o)
    simulates_assign
    simulates_assignElement
    (fun holds _ body => simulates_ifTrue unique holds body)
    (fun evaluated fails _ body => simulates_ifFalse unique evaluated fails body)
    (fun holds _ _ once again => simulates_whileTrue unique holds once again)
    (fun holds _ once => simulates_whileReturned unique holds once)
    (simulates_whileFalse unique)
    simulates_discard
    simulates_returnValue
    simulates_returnNothing
    listSimulates_nil
    (fun _ _ head tail => listSimulates_cons head tail)
    (fun _ head => listSimulates_returned head)
    ss s o exec

theorem Exec.simulates (unique : program.labels.Nodup) {stmt : Statement} {s : Store}
    {o : Outcome} (exec : Exec oracle scope stmt s o) :
    Simulates oracle scope program stmt s o := by
  intro before p pc fits h hp stack
  have hlist : ListExec oracle scope [stmt] s o := by
    cases o with
    | next s' => exact .cons exec .nil
    | returned w s' => exact .returned exec
  have hcode : listCode scope before [stmt] = .ok p := by
    rw [listCode, h, listCode, emit, ok_append_ok, List.append_nil]
  exact hlist.simulates unique (by rw [listCallsFit, fits]; rfl) hcode hp stack

/-! The converse: a run that stops has an outcome to stop with. -/

mutual

theorem exists_exec (unique : program.labels.Nodup) (n : Nat) (stmt : Statement)
    {before : LabelCount} {p : Program} {pc : Nat} (fits : stmt.callsFit)
    (h : stmt.code scope before = .ok p) (hp : program.HasAt pc p) {s : Store}
    {scratch : Scratch} {stack : List Word}
    (stops : (Point.state ⟨pc, s, stack⟩ scratch).StopsWithin oracle program n) :
    ∃ o, Exec oracle scope stmt s o := by
  cases stmt with
  | «let» target index value =>
    cases index with
    | none =>
      obtain ⟨v, q, hv, hq, rfl⟩ := code_assign h
      obtain ⟨result, hvalue, -⟩ := Expression.code_computes oracle value hq fits s
      exact ⟨_, .assign hv hvalue⟩
    | some index =>
      obtain ⟨v, q, r, hv, hq, hr, rfl⟩ := code_assignElement h
      rw [callsFit, Bool.and_eq_true] at fits
      obtain ⟨⟨i, between⟩, hindex, -⟩ := Expression.code_computes oracle index hq fits.1 s
      obtain ⟨result, hvalue, -⟩ :=
        Expression.code_computes oracle value hr fits.2 (s.withMemory between)
      exact ⟨_, .assignElement hv hindex hvalue⟩
  | «if» condition thenBody elseBody =>
    obtain ⟨c, _, _, hc, -⟩ := code_if h
    obtain ⟨hcondition, hthen, helse⟩ := callsFit_if fits
    obtain ⟨yes, no, t, e, htest, ht, hyes, -, he, hno, -⟩ :=
      if_layout oracle unique hcondition h hp
    obtain ⟨⟨w, memory⟩, hvalue, -⟩ := Expression.code_computes oracle condition hc hcondition s
    by_cases hw : w = BitVec.allOnes 16
    · subst hw
      obtain ⟨scratch', hstops⟩ := (htest.holds hvalue stack).stopsWithin stops
      obtain ⟨o, ho⟩ := exists_listExec unique n thenBody hthen ht hyes hstops
      exact ⟨o, .ifTrue hvalue ho⟩
    · have hsmall := sizeOf_else_lt condition thenBody elseBody
      obtain ⟨scratch', hstops⟩ := (htest.fails hvalue hw stack).stopsWithin stops
      obtain ⟨o, ho⟩ := exists_listExec unique n (elseBody.getD []) helse he hno hstops
      exact ⟨o, .ifFalse hvalue hw ho⟩
  | «while» condition body =>
    obtain ⟨c, _, hc, -⟩ := code_while h
    obtain ⟨hcondition, hbody⟩ := callsFit_while fits
    obtain ⟨yes, b, htest, hlabel, hb, hyes, hback⟩ := while_layout oracle unique hcondition h hp
    obtain ⟨⟨w, memory⟩, hvalue, -⟩ := Expression.code_computes oracle condition hc hcondition s
    by_cases hw : w = BitVec.allOnes 16
    · subst hw
      -- the label takes a step, so less of the run is left when the loop begins again, and the
      -- recursion ends although the statement is the same
      obtain ⟨m, hlt, hafter⟩ := stops.of_step (Program.step_of_effect hlabel rfl)
      obtain ⟨scratch₁, hentered⟩ := (htest.holds hvalue stack).stopsWithin hafter
      obtain ⟨o, ho⟩ := exists_listExec unique m body hbody hb hyes hentered
      cases o with
      | returned v s' => exact ⟨_, .whileReturned hvalue ho⟩
      | next s' =>
        have hend := ho.simulates unique hbody hb hyes stack
        have honce := Program.Leads.trans hend (hback s' stack)
        obtain ⟨scratch₂, hagain⟩ := honce.stopsWithin hentered
        obtain ⟨o', ho'⟩ := exists_exec unique m (.while condition body) fits h hp hagain
        exact ⟨o', .whileTrue hvalue ho ho'⟩
    · exact ⟨_, .whileFalse hvalue hw⟩
  | «do» target =>
    obtain ⟨q, hq, rfl⟩ := code_do h
    obtain ⟨result, hvalue, -⟩ := Call.code_computes oracle target hq fits s
    exact ⟨_, .discard hvalue⟩
  | «return» value =>
    cases value with
    | none => exact ⟨_, .returnNothing⟩
    | some value =>
      obtain ⟨q, hq, rfl⟩ := code_return_some h
      obtain ⟨result, hvalue, -⟩ := Expression.code_computes oracle value hq fits s
      exact ⟨_, .returnValue hvalue⟩
termination_by (n, sizeOf stmt)

theorem exists_listExec (unique : program.labels.Nodup) (n : Nat) (ss : List Statement)
    {before : LabelCount} {p : Program} {pc : Nat} (fits : listCallsFit ss)
    (h : listCode scope before ss = .ok p) (hp : program.HasAt pc p) {s : Store}
    {scratch : Scratch} {stack : List Word}
    (stops : (Point.state ⟨pc, s, stack⟩ scratch).StopsWithin oracle program n) :
    ∃ o, ListExec oracle scope ss s o := by
  cases ss with
  | nil => exact ⟨_, .nil⟩
  | cons first others =>
    obtain ⟨q, r, hq, hr, rfl⟩ := listCode_cons h
    rw [listCallsFit, Bool.and_eq_true] at fits
    obtain ⟨o, ho⟩ := exists_exec unique n first fits.1 hq hp.left stops
    cases o with
    | returned w s' => exact ⟨_, .returned ho⟩
    | next s' =>
      have hfirst := ho.simulates unique fits.1 hq hp.left stack
      obtain ⟨scratch', hstops⟩ := Program.Leads.stopsWithin hfirst stops
      obtain ⟨o', ho'⟩ := exists_listExec unique n others fits.2 hr hp.right hstops
      exact ⟨o', .cons ho ho'⟩
termination_by (n, sizeOf ss)

end

end Statement

/-- The states in which a run with this stack at its start is over, and with what outcome. -/
def Program.Final (program : Program) (stack : List Word) : Outcome → State → Prop
  | .next s, t => t.pc = program.length ∧ t.machine.store = s ∧ t.machine.stack = stack
  | .returned w s, t =>
    program[t.pc]? = some .return ∧ t.machine.store = s ∧ t.machine.stack = w :: stack

namespace Program

theorem Final.step_eq_none {stack : List Word} {o : Outcome} {t : State}
    (final : program.Final stack o t) : t.step oracle program = none := by
  unfold State.step
  cases o with
  | next s =>
    obtain ⟨hpc, -⟩ := final
    rw [hpc, List.getElem?_eq_none (Nat.le_refl _)]
  | returned w s =>
    obtain ⟨hpc, -⟩ := final
    rw [hpc]
    rfl

theorem Final.unique {stack : List Word} {o o' : Outcome} {t : State}
    (final : program.Final stack o t) (final' : program.Final stack o' t) : o = o' := by
  have hend : program[program.length]? = none := List.getElem?_eq_none (Nat.le_refl _)
  cases o with
  | next s =>
    obtain ⟨hpc, hstore, hstack⟩ := final
    cases o' with
    | next s' => rw [← hstore, final'.2.1]
    | returned w' s' =>
      have hreturn := final'.1
      rw [hpc, hend] at hreturn
      cases hreturn
  | returned w s =>
    obtain ⟨hreturn, hstore, hstack⟩ := final
    cases o' with
    | next s' =>
      rw [final'.1, hend] at hreturn
      cases hreturn
    | returned w' s' =>
      have hwords := hstack.symm.trans final'.2.2
      rw [List.cons.injEq] at hwords
      rw [hwords.1, ← hstore, final'.2.1]

theorem Ends.exists_final {start : Point} {o : Outcome}
    (ends : program.Ends oracle start program.length o) (scratch : Scratch) :
    ∃ t, (start.state scratch).Reaches oracle program t ∧ program.Final start.stack o t := by
  cases o with
  | next s =>
    obtain ⟨scratch', reaches⟩ := ends scratch
    exact ⟨_, reaches, rfl, rfl, rfl⟩
  | returned w s =>
    obtain ⟨pc, hpc, leads⟩ := ends
    obtain ⟨scratch', reaches⟩ := leads scratch
    exact ⟨_, reaches, hpc, rfl, rfl⟩

end Program

namespace Statement

/-- Statements at the end of a program have the outcomes in which runs of their code are over. -/
theorem listExec_iff_reaches_final (unique : program.labels.Nodup) {ss : List Statement}
    {before : LabelCount} {head body : Program} (fits : listCallsFit ss)
    (h : listCode scope before ss = .ok body) (hprogram : program = head ++ body) (s : Store)
    (stack : List Word) (scratch : Scratch) (o : Outcome) :
    ListExec oracle scope ss s o ↔
      ∃ t, (Point.state ⟨head.length, s, stack⟩ scratch).Reaches oracle program t ∧
        program.Final stack o t := by
  have hp : program.HasAt head.length body := ⟨head, [], by rw [hprogram, List.append_nil], rfl⟩
  have hlength : program.length = head.length + body.length := by
    rw [hprogram, List.length_append]
  have forward {o : Outcome} (exec : ListExec oracle scope ss s o) :
      program.Ends oracle ⟨head.length, s, stack⟩ program.length o := by
    rw [hlength]
    exact exec.simulates unique fits h hp stack
  constructor
  · intro exec
    exact (forward exec).exists_final scratch
  · rintro ⟨t, reaches, final⟩
    obtain ⟨n, stops⟩ := reaches.stopsWithin final.step_eq_none
    obtain ⟨o', exec⟩ := exists_listExec unique n ss fits h hp stops
    obtain ⟨t', reaches', final'⟩ := (forward exec).exists_final scratch
    -- a run has one last state, and a last state has one outcome
    have hlast := reaches.unique reaches' final.step_eq_none final'.step_eq_none
    subst hlast
    rwa [final.unique final']

theorem exists_listExec_iff_stops (unique : program.labels.Nodup) {ss : List Statement}
    {before : LabelCount} {head body : Program} (fits : listCallsFit ss)
    (h : listCode scope before ss = .ok body) (hprogram : program = head ++ body) (s : Store)
    (stack : List Word) (scratch : Scratch) :
    (∃ o, ListExec oracle scope ss s o) ↔
      ∃ n, (Point.state ⟨head.length, s, stack⟩ scratch).StopsWithin oracle program n := by
  constructor
  · rintro ⟨o, exec⟩
    obtain ⟨t, reaches, final⟩ :=
      (listExec_iff_reaches_final unique fits h hprogram s stack scratch o).mp exec
    exact reaches.stopsWithin final.step_eq_none
  · rintro ⟨n, stops⟩
    exact exists_listExec unique n ss fits h
      ⟨head, [], by rw [hprogram, List.append_nil], rfl⟩ stops

end Statement

end Jack
