import Jack.Proofs.Statement.Shape

/-! Where the calls of a text stand in its code. A call has the same code wherever it is made in a
scope, and this code is a stretch of the code of the statements around it: the receiver that the
call passes, the arguments one after the other, and the instruction that calls. -/

namespace Jack

open Code

/-! The calls in an expression, those in the arguments of other calls among them. -/

mutual

def Expression.calls : Expression → List Call
  | .term value => value.calls
  | .binary left _ right => left.calls ++ right.calls

def Term.calls : Term → List Call
  | .integer _ | .string _ | .constant _ | .variable _ => []
  | .element _ index => index.calls
  | .parenthesized inner => inner.calls
  | .unary _ operand => operand.calls
  | .call target => target.calls

def Call.calls : Call → List Call
  | .mk receiver name arguments => .mk receiver name arguments :: Expression.listCalls arguments

def Expression.listCalls : List Expression → List Call
  | [] => []
  | first :: others => first.calls ++ Expression.listCalls others

end

mutual

def Statement.calls : Statement → List Call
  | .let _ none value => value.calls
  | .let _ (some index) value => index.calls ++ value.calls
  | .if condition thenBody none => condition.calls ++ listCalls thenBody
  | .if condition thenBody (some elseBody) =>
    condition.calls ++ listCalls thenBody ++ listCalls elseBody
  | .while condition body => condition.calls ++ listCalls body
  | .do target => target.calls
  | .return none => []
  | .return (some value) => value.calls

def Statement.listCalls : List Statement → List Call
  | [] => []
  | first :: others => first.calls ++ listCalls others

end

variable {scope : Scope}

/-- Each of the calls has its code as a stretch of the program. -/
def Program.Holds (scope : Scope) (calls : List Call) (p : Program) : Prop :=
  ∀ c ∈ calls, ∃ q, c.code scope = .ok q ∧ q <:+: p

namespace Program.Holds

variable {calls others : List Call} {p q : Program}

theorem nil : Holds scope [] p := fun _ h => absurd h List.not_mem_nil

theorem before (h : Holds scope calls p) (q : Program) : Holds scope calls (p ++ q) := by
  intro c hc
  obtain ⟨code, hcode, hstretch⟩ := h c hc
  exact ⟨code, hcode, hstretch.trans (List.prefix_append p q).isInfix⟩

theorem behind (h : Holds scope calls q) (p : Program) : Holds scope calls (p ++ q) := by
  intro c hc
  obtain ⟨code, hcode, hstretch⟩ := h c hc
  exact ⟨code, hcode, hstretch.trans (List.suffix_append p q).isInfix⟩

theorem append (h : Holds scope calls p) (h' : Holds scope others q) :
    Holds scope (calls ++ others) (p ++ q) := by
  intro c hc
  rcases List.mem_append.mp hc with hc | hc
  · exact h.before q c hc
  · exact h'.behind p c hc

end Program.Holds

/-- Code of the arguments of a call is that of one after the other. -/
theorem Expression.listCode_eq_ok {es : List Expression} {p : Program}
    (h : Expression.listCode scope es = .ok p) :
    ∃ pieces, List.Forall₂ (fun e q => e.code scope = .ok q) es pieces ∧ p = pieces.flatten := by
  induction es generalizing p with
  | nil =>
    rw [Expression.listCode, emit] at h
    cases h
    exact ⟨[], .nil, rfl⟩
  | cons first others ih =>
    rw [Expression.listCode, append_eq_ok_iff] at h
    obtain ⟨q, r, hq, hr, rfl⟩ := h
    obtain ⟨pieces, hpieces, rfl⟩ := ih hr
    exact ⟨q :: pieces, .cons hq hpieces, rfl⟩

theorem Call.code_eq_ok {receiver : Option String} {name : String} {arguments : List Expression}
    {p : Program} (h : (Call.mk receiver name arguments).code scope = .ok p) :
    ∃ pieces, List.Forall₂ (fun e q => e.code scope = .ok q) arguments pieces ∧
      p = (scope.dispatch receiver).1 ++ pieces.flatten ++
        [.call s!"{(scope.dispatch receiver).2}.{name}"
          (UInt32.ofNat (arguments.length + (scope.dispatch receiver).1.length))] := by
  simp only [Call.code, append_eq_ok_iff, emit_eq_ok_iff] at h
  obtain ⟨_, _, ⟨_, q, rfl, hq, rfl⟩, rfl, rfl⟩ := h
  obtain ⟨pieces, hpieces, rfl⟩ := Expression.listCode_eq_ok hq
  exact ⟨pieces, hpieces, rfl⟩

/-- The induction carries the code itself along, for the calls in the arguments of a call need not
be the only ones in it. -/
theorem Expression.holds_cases : CodeInduction scope
    (fun e p => e.code scope = .ok p ∧ p.Holds scope e.calls)
    (fun t p => t.code scope = .ok p ∧ p.Holds scope t.calls)
    (fun c p => c.code scope = .ok p ∧ p.Holds scope c.calls)
    (fun es p => listCode scope es = .ok p ∧ p.Holds scope (listCalls es)) where
  term hp := hp
  binary {_ op _ _ _} hp hq := by
    refine ⟨?_, (hp.2.append hq.2).before _⟩
    rw [Expression.code, hp.1, hq.1]
    rfl
  integer := ⟨rfl, .nil⟩
  string := ⟨rfl, .nil⟩
  constant := ⟨rfl, .nil⟩
  read hv := ⟨Scope.resolve_bind_eq_ok_iff.mpr ⟨_, hv, rfl⟩, .nil⟩
  element {array index v p} hv hp := by
    refine ⟨?_, (hp.2.behind _).before _⟩
    rw [Term.code, Scope.resolve_bind_eq_ok_iff]
    exact ⟨v, hv, by rw [hp.1]; rfl⟩
  parenthesized hp := hp
  unary hp := by
    refine ⟨?_, hp.2.before _⟩
    rw [Term.code, hp.1]
    rfl
  call hp := hp
  arguments {receiver name es p} hp := by
    have hcode : (Call.mk receiver name es).code scope = .ok ((scope.dispatch receiver).1 ++ p ++
        [.call s!"{(scope.dispatch receiver).2}.{name}"
          (UInt32.ofNat (es.length + (scope.dispatch receiver).1.length))]) := by
      rw [Call.code, hp.1]
      rfl
    refine ⟨hcode, fun c hc => ?_⟩
    rcases List.mem_cons.mp hc with rfl | hc
    · exact ⟨_, hcode, List.infix_rfl⟩
    · exact ((hp.2.behind _).before _) c hc
  nil := ⟨rfl, .nil⟩
  cons hp hq := by
    refine ⟨?_, hp.2.append hq.2⟩
    rw [listCode, hp.1, hq.1]
    rfl

theorem Expression.holds_calls {e : Expression} {p : Program} (h : e.code scope = .ok p) :
    p.Holds scope e.calls := (holds_cases.code e h).2

theorem Call.holds_calls {c : Call} {p : Program} (h : c.code scope = .ok p) :
    p.Holds scope c.calls := (Expression.holds_cases.callCode c h).2

namespace Statement

theorem calls_if (condition : Expression) (thenBody : List Statement)
    (elseBody : Option (List Statement)) :
    calls (.if condition thenBody elseBody) =
      condition.calls ++ listCalls thenBody ++ listCalls (elseBody.getD []) := by
  cases elseBody <;> simp [calls, listCalls]

theorem holds_cases : CodeInduction scope (fun s _ p => p.Holds scope s.calls)
    (fun ss _ p => p.Holds scope (listCalls ss)) where
  assign _ hq := (Expression.holds_calls hq).before _
  assignElement _ hq hr :=
    ((((Expression.holds_calls hq).behind _).before _).append (Expression.holds_calls hr)).before _
  conditional hc _ ht he := by
    rw [calls_if]
    exact (((((Expression.holds_calls hc).before _).append ht).before _).append he).before _
  loop hc hb := ((((Expression.holds_calls hc).behind _).before _).append hb).before _
  call hq := (Call.holds_calls hq).before _
  returnNone := .nil
  returnSome hq := (Expression.holds_calls hq).before _
  nil := .nil
  cons _ hfirst hothers := hfirst.append hothers

/-- All calls of the statements are found in their code. -/
theorem holds_listCalls {ss : List Statement} {before : LabelCount} {p : Program}
    (h : listCode scope before ss = .ok p) : p.Holds scope (listCalls ss) :=
  holds_cases.listCode ss h

end Statement

end Jack
