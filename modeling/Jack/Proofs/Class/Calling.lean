import Jack.Proofs.Class.Access
import Jack.Proofs.Expression.Code
import Jack.Proofs.Statement.Calls

/-! What a call passes and what the called subroutine finds. A call pushes the receiver, if there is
one, and then its arguments, and it counts what it pushed. The subroutine that begins with these
words as its arguments has each of them in the slot of the parameter that it was passed for, and the
receiver, which comes first, as the object at hand. -/

namespace Jack

/-- Code of arguments, piece by piece, that leaves one value for each on the stack. -/
inductive Program.Yields (oracle : Oracle) : List Program → Store → List Word → Store → Prop
  | nil {s : Store} : Yields oracle [] s [] s
  | cons {p : Program} {ps : List Program} {s between s' : Store} {w : Word} {ws : List Word}
    (first : ∀ stack, p.Runs oracle s stack between (w :: stack))
    (others : Yields oracle ps between ws s') : Yields oracle (p :: ps) s (w :: ws) s'

namespace Program.Yields

variable {oracle : Oracle} {pieces : List Program} {s s' : Store} {values : List Word}

theorem length_eq (h : Yields oracle pieces s values s') : values.length = pieces.length := by
  induction h with
  | nil => rfl
  | cons _ _ ih => rw [List.length_cons, List.length_cons, ih]

theorem runs (h : Yields oracle pieces s values s') (stack : List Word) :
    Program.Runs oracle pieces.flatten s stack s' (values.reverse ++ stack) := by
  induction h generalizing stack with
  | nil => exact Program.Runs.refl _ _
  | cons first _ ih =>
    rw [List.reverse_cons, List.append_assoc]
    exact (first stack).append (ih _)

end Program.Yields

/-- Arguments leave their values, unless a call among them has more arguments than can be
counted. -/
theorem Expression.exists_yields (oracle : Oracle) {scope : Scope} {es : List Expression}
    {pieces : List Program} (hpieces : List.Forall₂ (fun e q => e.code scope = .ok q) es pieces)
    (fits : Expression.listCallsFit es) (s : Store) :
    ∃ values memory, Expression.listEval oracle scope es s = some (values, memory) ∧
      Program.Yields oracle pieces s values (s.withMemory memory) := by
  induction hpieces generalizing s with
  | nil => exact ⟨[], s.memory, rfl, .nil⟩
  | @cons first piece others pieces hfirst _ ih =>
    simp only [Expression.listCallsFit, Bool.and_eq_true] at fits
    obtain ⟨⟨w, between⟩, hw, hruns⟩ := Expression.code_computes oracle first hfirst fits.1 s
    obtain ⟨ws, memory, hws, hyields⟩ := ih fits.2 (s.withMemory between)
    refine ⟨w :: ws, memory, ?_, .cons hruns hyields⟩
    simp only [Expression.listEval, hw, hws, Option.bind_eq_bind, Option.bind_some,
      Option.pure_def]

/-- A call of a subroutine of the class `owner` in the way that its kind asks for: a method on the
object at hand or on the object in a variable, any other subroutine on the class. -/
inductive Scope.Addresses (scope : Scope) (owner : String) :
    SubroutineKind → Option String → (Store → List Word) → Prop
  | own (inside : scope.className = owner) :
    Addresses scope owner .method none fun s => [s.this]
  | object {name : String} {v : Variable} (visible : scope.lookup name = some v)
    (typed : v.type = owner) : Addresses scope owner .method (some name) fun s => [v.read s]
  | static {kind : SubroutineKind} (plain : kind ≠ .method)
    (free : scope.lookup owner = none) : Addresses scope owner kind (some owner) fun _ => []

namespace Scope.Addresses

variable {scope : Scope} {owner : String} {kind : SubroutineKind} {receiver : Option String}
  {objects : Store → List Word}

theorem addressee_eq (h : scope.Addresses owner kind receiver objects) (s : Store) :
    scope.addressee s receiver = (objects s, owner) := by
  cases h with
  | own inside => rw [addressee, inside]
  | object visible typed => simp only [addressee, visible, typed]
  | static plain free => simp only [addressee, free]

theorem length_eq (h : scope.Addresses owner kind receiver objects) (s : Store) :
    (objects s).length = if kind = .method then 1 else 0 := by
  cases h with
  | own | object => rfl
  | static plain free => rw [if_neg plain, List.length_nil]

theorem dispatch_eq (h : scope.Addresses owner kind receiver objects) :
    (scope.dispatch receiver).2 = owner ∧
      (scope.dispatch receiver).1.length = if kind = .method then 1 else 0 := by
  cases h with
  | own inside => exact ⟨inside, rfl⟩
  | object visible typed => simp [dispatch, visible, typed]
  | static plain free => simp [dispatch, free, plain]

/-- The code in front of the arguments leaves the receiver. -/
theorem runs_dispatch (h : scope.Addresses owner kind receiver objects) (oracle : Oracle)
    (s : Store) (stack : List Word) :
    Program.Runs oracle (scope.dispatch receiver).1 s stack s
      ((objects s).reverse ++ stack) := by
  have hruns : Program.Runs oracle (scope.dispatch receiver).1 s stack s
      ((scope.addressee s receiver).1.reverse ++ stack) :=
    Scope.runs_dispatch oracle receiver s stack
  rwa [h.addressee_eq] at hruns

end Scope.Addresses

/-- The called subroutine begins with the last `n` words of the stack as its arguments, in the order
in which they were pushed, and with the memory that the caller left. -/
structure Point.Enters (caller : Point) (n : UInt32) (callee : Store) : Prop where
  memory : callee.memory = caller.store.memory
  arguments : ∀ k < n.toNat,
    (caller.stack.take n.toNat).reverse[k]? = some (callee.arguments (UInt32.ofNat k))

namespace Subroutine

/-- The store in which the statements of a subroutine begin. -/
def entered (oracle : Oracle) (scope : Scope) (s : Subroutine) (callee : Store) : Store :=
  let fresh := { callee with
    locals := fun i => if i < scope.count .local then 0 else callee.locals i }
  match s.kind with
  | .constructor =>
    let answer := oracle.call "Memory.alloc" [.ofOperand scope.fieldCount] callee.memory
    { fresh with this := answer.1, memory := answer.2 }
  | .method => { fresh with this := callee.arguments 0 }
  | .function => fresh

variable (oracle : Oracle) {s : Subroutine} {scope : Scope} {callee : Store}

theorem arguments_entered : (s.entered oracle scope callee).arguments = callee.arguments := by
  unfold entered
  cases s.kind <;> rfl

theorem runs_prologue (s : Subroutine) (scope : Scope) (callee : Store) (stack : List Word) :
    Program.Runs oracle (s.prologue scope) callee stack (s.entered oracle scope callee) stack := by
  intro scratch
  unfold prologue entered
  cases s.kind with
  | constructor =>
    refine ⟨oracle.scratch "Memory.alloc" [.ofOperand scope.fieldCount] callee.memory scratch, ?_⟩
    simp [Program.execute, Instruction.effect, Machine.read, Machine.call, Machine.write,
      Store.withMemory]
  | method => exact ⟨scratch, rfl⟩
  | function => exact ⟨scratch, rfl⟩

end Subroutine

/-- What the statements of a called subroutine find: in the slot of each parameter the value that
was passed for it, and as the object at hand the receiver of a method and a new object, with room
for all fields of the class, of a constructor. -/
structure Class.Receives (c : Class) (oracle : Oracle) (s : Subroutine) (scope : Scope)
    (objects values : List Word) (callee found : Store) : Prop where
  parameters : ∀ (k : Nat) p, s.parameters[k]? = some p →
    ∃ v, scope.lookup p.name = some v ∧ v.kind = .argument ∧ values[k]? = some (v.read found)
  receiver : s.kind = .method → objects = [found.this]
  allocation : s.kind = .constructor → ∃ n : UInt32, n.toNat = (c.variableNames .field).length ∧
    found.this = (oracle.call "Memory.alloc" [.ofOperand n] callee.memory).1

/-- The words that the caller pushed last are found as arguments under their numbers. -/
theorem Point.Enters.argument_eq {caller : Point} {n : UInt32} {callee : Store}
    (enters : caller.Enters n callee) {words stack : List Word} (hn : n.toNat = words.length)
    (hstack : caller.stack = words.reverse ++ stack) {k : Nat} {w : Word}
    (hw : words[k]? = some w) : callee.arguments (UInt32.ofNat k) = w := by
  have hk : k < n.toNat := hn ▸ (List.getElem?_eq_some_iff.mp hw).1
  have htop : (caller.stack.take n.toNat).reverse = words := by
    rw [hstack, hn, ← List.length_reverse, List.take_left, List.reverse_reverse]
  have hargument := enters.arguments k hk
  rw [htop, hw] at hargument
  exact (Option.some.inj hargument).symm

namespace Class.Encloses

variable {c : Class} {s : Subroutine} {scope : Scope} {objects values : List Word}

theorem receives (h : c.Encloses s scope) (few : c.allDeclarations.length < 2 ^ 32 - 1)
    (oracle : Oracle) (hobjects : objects.length = if s.kind = .method then 1 else 0)
    (hvalues : values.length = s.parameters.length) {callee : Store}
    (hpassed : ∀ k w, (objects ++ values)[k]? = some w → callee.arguments (UInt32.ofNat k) = w) :
    c.Receives oracle s scope objects values callee (s.entered oracle scope callee) where
  parameters k p hp := by
    refine ⟨_, h.lookup_passed (Subroutine.getElem?_passed hp), rfl, ?_⟩
    have hk : k < values.length := hvalues ▸ (List.getElem?_eq_some_iff.mp hp).1
    have hword : (objects ++ values)[(if s.kind = .method then 1 else 0) + k]? =
        some values[k] := by
      rw [← hobjects, List.getElem?_append_right (Nat.le_add_right _ _), Nat.add_sub_cancel_left,
        List.getElem?_eq_getElem hk]
    have hargument := hpassed _ _ hword
    rw [List.getElem?_eq_getElem hk, Variable.read, Subroutine.arguments_entered, hargument]
  receiver hkind := by
    rw [if_pos hkind] at hobjects
    obtain ⟨object, rfl⟩ := List.length_eq_one_iff.mp hobjects
    have hargument : callee.arguments 0 = object := hpassed 0 object rfl
    rw [Subroutine.entered, hkind, ← hargument]
  allocation hkind := by
    refine ⟨scope.fieldCount, toNat_fieldCount few h, ?_⟩
    rw [Subroutine.entered, hkind]

end Class.Encloses

theorem Program.exists_hasAt_of_infix {p q : Program} (h : q <:+: p) : ∃ pc, p.HasAt pc q := by
  obtain ⟨before, after, rfl⟩ := h
  exact ⟨before.length, before, after, rfl, rfl⟩

namespace Class

/-- Whatever store the subroutine that begins at `call` has, its prologue makes it what it should
be. -/
def Meets (c : Class) (oracle : Oracle) (s : Subroutine) (scope : Scope) (body : Program)
    (objects values : List Word) (call : Point) (n : UInt32) : Prop :=
  ∀ callee below, call.Enters n callee → ∃ found,
    (s.prologue scope ++ body).Leads oracle ⟨0, callee, below⟩
      ⟨(s.prologue scope).length, found, below⟩ ∧
    c.Receives oracle s scope objects values callee found

theorem Encloses.meets {c : Class} {s : Subroutine} {scope : Scope} {objects values : List Word}
    (h : c.Encloses s scope) (few : c.allDeclarations.length < 2 ^ 32 - 1) (oracle : Oracle)
    (body : Program) (hobjects : objects.length = if s.kind = .method then 1 else 0)
    (hvalues : values.length = s.parameters.length) {call : Point} {n : UInt32}
    {stack : List Word} (hn : n.toNat = (objects ++ values).length)
    (hstack : call.stack = (objects ++ values).reverse ++ stack) :
    c.Meets oracle s scope body objects values call n := by
  intro callee below enters
  have hprologue : (s.prologue scope ++ body).HasAt 0 (s.prologue scope) :=
    ⟨[], body, rfl, rfl⟩
  have hleads := (s.runs_prologue oracle scope callee below).leads hprologue
  rw [Nat.zero_add] at hleads
  exact ⟨_, hleads, h.receives few oracle hobjects hvalues fun k w hw =>
    enters.argument_eq hn hstack hw⟩

/-- A call and the subroutine that it names agree on what is passed. The instruction counts the
words that the code in front of it pushes, and a subroutine that begins with these words finds them
where its statements look for them. -/
theorem calls_meet_subroutines {callers called : Class} {e d : Program}
    (compiled : callers.code = .ok e) (compiled' : called.code = .ok d)
    (few : called.allDeclarations.length < 2 ^ 32 - 1) {i j : Nat} {s m : Subroutine}
    (hs : callers.subroutines[i]? = some s) (hm : called.subroutines[j]? = some m)
    (countable : m.parameters.length < 2 ^ 32 - 1) {scope : Scope}
    (hscope : callers.scope >>= s.scope = .ok scope) {receiver : Option String}
    {arguments : List Expression} {objects : Store → List Word}
    (site : .mk receiver m.name arguments ∈ Statement.listCalls s.body.statements)
    (hlength : arguments.length = m.parameters.length)
    (addresses : scope.Addresses called.name m.kind receiver objects) :
    ∃ block pieces pc n inner body, e.functions[i]? = some block ∧
      List.Forall₂ (fun a q => a.code scope = .ok q) arguments pieces ∧
      block.HasAt pc ((scope.dispatch receiver).1 ++ pieces.flatten ++
        [.call s!"{called.name}.{m.name}" n]) ∧
      called.scope >>= m.scope = .ok inner ∧ d.functions[j]? = some (m.prologue inner ++ body) ∧
      (∀ oracle store, Expression.listCallsFit arguments → ∃ values memory,
        Expression.listEval oracle scope arguments store = some (values, memory) ∧
          Program.Yields oracle pieces store values (store.withMemory memory)) ∧
      ∀ oracle store values store', Program.Yields oracle pieces store values store' →
        n.toNat = (objects store ++ values).length ∧ ∀ stack,
          let call : Point := ⟨pc + ((scope.dispatch receiver).1 ++ pieces.flatten).length, store',
            (objects store ++ values).reverse ++ stack⟩
          block.Leads oracle ⟨pc, store, stack⟩ call ∧
            called.Meets oracle m inner body (objects store) values call n := by
  obtain ⟨outer, houter, hcode⟩ := code_eq_ok compiled
  obtain ⟨outer', houter', hcode'⟩ := code_eq_ok compiled'
  obtain ⟨earlier, caller, block, hcaller, hblock, hfunctions, -⟩ :=
    Subroutine.functions_listCode hcode hs
  obtain ⟨earlier', inner, body, hinner, hbody, hfunctions', -⟩ :=
    Subroutine.functions_listCode hcode' hm
  obtain rfl : caller = scope := by
    rw [houter] at hscope
    exact Except.ok.inj (hcaller.symm.trans hscope)
  obtain ⟨q, hq, hstretch⟩ := Statement.holds_listCalls hblock _ site
  obtain ⟨pieces, hpieces, rfl⟩ := Call.code_eq_ok hq
  obtain ⟨howner, hobject⟩ := addresses.dispatch_eq
  obtain ⟨pc, hat⟩ := Program.exists_hasAt_of_infix
    (hstretch.trans (List.suffix_append (s.prologue caller) block).isInfix)
  rw [howner] at hat
  refine ⟨_, pieces, pc, _, inner, body, hfunctions, hpieces, hat, by rw [houter']; exact hinner,
    hfunctions', fun oracle store fits => Expression.exists_yields oracle hpieces fits store, ?_⟩
  intro oracle store values store' yields
  have hvalues : values.length = m.parameters.length := by
    rw [yields.length_eq, ← hpieces.length_eq, hlength]
  have hobjects := addresses.length_eq store
  have hcount : (UInt32.ofNat (arguments.length + (caller.dispatch receiver).1.length)).toNat =
      (objects store ++ values).length := by
    have hone : (if m.kind = .method then 1 else 0) ≤ 1 := by split <;> decide
    rw [List.length_append, hobjects, hvalues, hlength, hobject, UInt32.toNat_ofNat',
      Nat.mod_eq_of_lt (by omega), Nat.add_comm]
  refine ⟨hcount, fun stack => ⟨?_, ?_⟩⟩
  · have hruns := (addresses.runs_dispatch oracle store stack).append (yields.runs _)
    rw [← List.append_assoc, ← List.reverse_append] at hruns
    exact hruns.leads hat.left
  · exact (encloses_of_scope houter' hinner).meets few oracle body hobjects hvalues hcount rfl

end Class

/-- A method that calls itself on another object. -/
def lend : Subroutine where
  kind := .method
  returnType := some .int
  name := "lend"
  parameters := [⟨.int, "amount"⟩, ⟨.object "Account", "other"⟩]
  body := {
    locals := []
    statements := [
      .return (some (.term (.call (.mk (some "other") "lend"
        [.binary (.term (.variable "amount")) .subtract (.integer 1),
          .term (.constant .this)]))))] }

def account : Class := ⟨"Account", [⟨.field, .int, ["total", "limit"]⟩], [lend]⟩

def accountCode : Program := [
  .function "Account.lend" 0, .push .argument 0, .pop .pointer 0,
  .push .argument 2, .push .argument 1, .push .constant 1, .arithmetic .sub, .push .pointer 0,
  .call "Account.lend" 3, .return]

/-- The amount that is passed is the second word of three. -/
theorem calls_meet_subroutines_account :
    account.code = .ok accountCode ∧ account.allDeclarations.length < 2 ^ 32 - 1 ∧
      account.subroutines[0]? = some lend ∧ lend.parameters.length < 2 ^ 32 - 1 ∧
      ∃ scope arguments objects, account.scope >>= lend.scope = .ok scope ∧
        .mk (some "other") "lend" arguments ∈ Statement.listCalls lend.body.statements ∧
        arguments.length = lend.parameters.length ∧
        scope.Addresses "Account" .method (some "other") objects ∧
        ∃ (pieces : List Program) (pc : Nat) (n : UInt32) (body : Program), accountCode.HasAt pc
            ((scope.dispatch (some "other")).1 ++ pieces.flatten ++ [.call "Account.lend" n]) ∧
          ∀ oracle store stack, ∃ values memory,
            let call : Point := ⟨pc + ((scope.dispatch (some "other")).1 ++ pieces.flatten).length,
              store.withMemory memory, (objects store ++ values).reverse ++ stack⟩
            n.toNat = (objects store ++ values).length ∧
              accountCode.Leads oracle ⟨pc, store, stack⟩ call ∧
              account.Meets oracle lend scope body (objects store) values call n := by
  have compiled : account.code = .ok accountCode := rfl
  have few : account.allDeclarations.length < 2 ^ 32 - 1 := by decide
  have only : account.subroutines[0]? = some lend := rfl
  have countable : lend.parameters.length < 2 ^ 32 - 1 := by decide
  obtain ⟨scope, hscope⟩ : ∃ scope, account.scope >>= lend.scope = .ok scope := ⟨_, rfl⟩
  have hlookup : scope.lookup "other" = some ⟨⟨"other", "Account", .argument⟩, 2⟩ := by
    cases hscope
    rfl
  have site : .mk (some "other") "lend"
      [.binary (.term (.variable "amount")) .subtract (.integer 1), .term (.constant .this)] ∈
        Statement.listCalls lend.body.statements := List.mem_singleton.mpr rfl
  have addresses : scope.Addresses "Account" .method (some "other") fun s => [s.arguments 2] :=
    .object hlookup rfl
  refine ⟨compiled, few, only, countable, scope, _, _, hscope, site, rfl, addresses, ?_⟩
  obtain ⟨block, pieces, pc, n, inner, body, hblock, -, hat, hinner, -, hyields, hmeets⟩ :=
    Class.calls_meet_subroutines compiled compiled few only only countable hscope site rfl addresses
  obtain rfl : accountCode = block := Option.some.inj hblock
  obtain rfl : scope = inner := Except.ok.inj (hscope.symm.trans hinner)
  refine ⟨pieces, pc, n, body, hat, fun oracle store stack => ?_⟩
  obtain ⟨values, memory, -, yields⟩ := hyields oracle store (by decide)
  obtain ⟨hcount, hcall⟩ := hmeets oracle store values _ yields
  exact ⟨values, memory, hcount, hcall stack⟩

end Jack
