import Jack.Proofs.Statement.Shape
import Jack.Proofs.Statement.Spelling

/-! Where the instructions in the code of statements come from. Each of them is there for a name, a
number or a string in the text of the statements, or it is one of those that the code has whatever
the text says, among which none moves the object at hand. In the other direction the length of every
string in the text is pushed. -/

namespace Jack

open Code

variable {scope : Scope} {ts : List Token}

/-- The segments through which code reaches the object and the array element at hand, and where it
puts a value aside. -/
def Segment.isScratch : Segment → Bool
  | .pointer | .that | .temp => true
  | .constant | .argument | .local | .static | .this => false

/-- The library subroutines that stand for operators and make strings. -/
def libraryCalls : List String :=
  ["Math.multiply", "Math.divide", "String.new", "String.appendChar"]

/-- The instruction is in code because of these tokens, or for no token in particular. -/
inductive Instruction.ComesFrom (scope : Scope) (ts : List Token) : Instruction → Prop
  | read {name v} : .identifier name ∈ ts → scope.lookup name = some v → ComesFrom scope ts v.push
  | write {name v} : .identifier name ∈ ts → scope.lookup name = some v → ComesFrom scope ts v.pop
  | integer {value} : .integer value ∈ ts → ComesFrom scope ts (.push .constant value)
  | length {text} : .string text ∈ ts →
    ComesFrom scope ts (.push .constant (UInt32.ofNat text.length))
  | character {text c} : .string text ∈ ts → c ∈ text.toList →
    ComesFrom scope ts (.push .constant c.val)
  | zero : ComesFrom scope ts (.push .constant 0)
  | load {segment index} : segment.isScratch → ComesFrom scope ts (.push segment index)
  | store {segment index} : segment.isScratch → (segment, index) ≠ (.pointer, 0) →
    ComesFrom scope ts (.pop segment index)
  | arithmetic {command} : ComesFrom scope ts (.arithmetic command)
  | library {name arguments} : name ∈ libraryCalls → ComesFrom scope ts (.call name arguments)
  | call {receiver name arguments} : (∀ object ∈ receiver, .identifier object ∈ ts) →
    .identifier name ∈ ts →
    ComesFrom scope ts (.call s!"{(scope.dispatch receiver).2}.{name}" arguments)
  | label {kind number} : ComesFrom scope ts (.label (labelName scope.className kind number))
  | goto {kind number} : ComesFrom scope ts (.goto (labelName scope.className kind number))
  | ifGoto {kind number} : ComesFrom scope ts (.ifGoto (labelName scope.className kind number))
  | return : ComesFrom scope ts .return

def Program.ComesFrom (scope : Scope) (ts : List Token) (p : Program) : Prop :=
  ∀ i ∈ p, i.ComesFrom scope ts

namespace Program

variable {p q : Program}

@[simp] theorem comesFrom_nil : ComesFrom scope ts [] := fun _ h => absurd h List.not_mem_nil

@[simp] theorem comesFrom_cons {i : Instruction} :
    ComesFrom scope ts (i :: p) ↔ i.ComesFrom scope ts ∧ p.ComesFrom scope ts :=
  List.forall_mem_cons

@[simp] theorem comesFrom_append :
    ComesFrom scope ts (p ++ q) ↔ p.ComesFrom scope ts ∧ q.ComesFrom scope ts :=
  List.forall_mem_append

theorem comesFrom_singleton {i : Instruction} :
    ComesFrom scope ts [i] ↔ i.ComesFrom scope ts := List.forall_mem_singleton

end Program

theorem comesFrom_stringCode {text : String} (h : .string text ∈ ts) :
    (stringCode text).ComesFrom scope ts := by
  rw [stringCode, Program.comesFrom_append]
  constructor
  · simpa using ⟨.length h, .library (by decide)⟩
  · intro i hi
    obtain ⟨c, hc, hi⟩ := List.mem_flatMap.mp hi
    have hchar : Program.ComesFrom scope ts
        [.push .constant c.val, .call "String.appendChar" 2] := by
      simpa using ⟨.character h hc, .library (by decide)⟩
    exact hchar i hi

theorem Constant.comesFrom_code (c : Constant) : c.code.ComesFrom scope ts := by
  have hobject : Instruction.ComesFrom scope ts (.push .pointer 0) := .load rfl
  cases c <;> simp [Constant.code, hobject, Instruction.ComesFrom.zero,
    Instruction.ComesFrom.arithmetic]

theorem UnaryOp.comesFrom_instruction (op : UnaryOp) : op.instruction.ComesFrom scope ts := by
  cases op <;> exact .arithmetic

theorem BinaryOp.comesFrom_instruction (op : BinaryOp) : op.instruction.ComesFrom scope ts := by
  cases op <;> first | exact .arithmetic | exact .library (by decide)

theorem Scope.comesFrom_dispatch {receiver : Option String}
    (h : ∀ object ∈ receiver, .identifier object ∈ ts) :
    (scope.dispatch receiver).1.ComesFrom scope ts := by
  unfold dispatch
  cases receiver with
  | none => exact Program.comesFrom_singleton.mpr (.load rfl)
  | some object =>
    cases hv : scope.lookup object with
    | none =>
      simp only [hv]
      exact Program.comesFrom_nil
    | some v =>
      simp only [hv]
      exact Program.comesFrom_singleton.mpr (.read (h object rfl) hv)

theorem Call.receiver_mem {receiver : Option String} {name : String}
    (h : Call.targetTokens receiver name ⊆ ts) : ∀ object ∈ receiver, .identifier object ∈ ts := by
  rintro object ⟨⟩
  exact h (by simp [Call.targetTokens])

theorem Call.name_mem {receiver : Option String} {name : String}
    (h : Call.targetTokens receiver name ⊆ ts) : .identifier name ∈ ts := by
  cases receiver <;> exact h (by simp [Call.targetTokens])

theorem Expression.listTokens_subset {es : List Expression} :
    listTokens es ⊆ commaTokens es := by
  cases es with
  | nil => exact List.Subset.refl _
  | cons first others => exact List.subset_cons_self _ _

namespace Expression

theorem comesFrom_cases : CodeInduction scope
    (fun e p => e.tokens ⊆ ts → p.ComesFrom scope ts)
    (fun t p => t.tokens ⊆ ts → p.ComesFrom scope ts)
    (fun c p => c.tokens ⊆ ts → p.ComesFrom scope ts)
    (fun es p => listTokens es ⊆ ts → p.ComesFrom scope ts) where
  term hp := hp
  binary {_ op _ _ _} hp hq inside := by
    simp only [tokens, List.append_subset, List.cons_subset] at inside
    simpa [op.comesFrom_instruction] using ⟨hp inside.1, hq inside.2.2⟩
  integer inside := Program.comesFrom_singleton.mpr (.integer (inside List.mem_cons_self))
  string inside := comesFrom_stringCode (inside List.mem_cons_self)
  constant _ := Constant.comesFrom_code _
  read hv inside := Program.comesFrom_singleton.mpr (.read (inside List.mem_cons_self) hv)
  element hv hp inside := by
    simp only [Term.tokens, List.cons_append, List.append_subset, List.cons_subset] at inside
    obtain ⟨harray, -, hindex, -⟩ := inside
    simp only [Program.comesFrom_append, Program.comesFrom_cons]
    exact ⟨⟨⟨.read harray hv, Program.comesFrom_nil⟩, hp hindex⟩,
      .arithmetic, .store rfl (by decide), .load rfl, Program.comesFrom_nil⟩
  parenthesized hp inside := by
    simp only [Term.tokens, List.cons_append, List.append_subset, List.cons_subset] at inside
    exact hp inside.2.1
  unary {op _ _} hp inside := by
    simp only [Term.tokens, List.cons_subset] at inside
    simpa [op.comesFrom_instruction] using hp inside.2
  call hp := hp
  arguments hp inside := by
    simp only [Call.tokens_mk, List.append_subset, List.cons_subset] at inside
    obtain ⟨htarget, -, harguments, -⟩ := inside
    -- the receiver is read, if it is a variable, or its name is a class that the call names
    simp only [Program.comesFrom_append, Program.comesFrom_singleton]
    exact ⟨⟨Scope.comesFrom_dispatch (Call.receiver_mem htarget), hp harguments⟩,
      .call (Call.receiver_mem htarget) (Call.name_mem htarget)⟩
  nil _ := Program.comesFrom_nil
  cons hp hq inside := by
    simp only [listTokens, List.append_subset] at inside
    have hothers := List.Subset.trans listTokens_subset inside.2
    exact Program.comesFrom_append.mpr ⟨hp inside.1, hq hothers⟩

theorem comesFrom_code {e : Expression} {p : Program} (h : e.code scope = .ok p)
    (inside : e.tokens ⊆ ts) : p.ComesFrom scope ts := comesFrom_cases.code e h inside

end Expression

theorem Call.comesFrom_code {c : Call} {p : Program} (h : c.code scope = .ok p)
    (inside : c.tokens ⊆ ts) : p.ComesFrom scope ts :=
  Expression.comesFrom_cases.callCode c h inside

namespace Statement

theorem comesFrom_cases : CodeInduction scope
    (fun s _ p => s.tokens ⊆ ts → p.ComesFrom scope ts)
    (fun ss _ p => listTokens ss ⊆ ts → p.ComesFrom scope ts) where
  assign hv hq inside := by
    simp only [tokens, indexTokens, List.append_subset, List.cons_subset, and_assoc] at inside
    obtain ⟨-, htarget, -, -, -, -, hvalue, -⟩ := inside
    simp only [Program.comesFrom_append, Program.comesFrom_singleton]
    exact ⟨Expression.comesFrom_code hq hvalue, .write htarget hv⟩
  assignElement hv hq hr inside := by
    simp only [tokens, indexTokens, List.cons_append, List.append_subset, List.cons_subset,
      and_assoc] at inside
    obtain ⟨-, harray, -, -, hindex, -, -, -, -, hvalue, -⟩ := inside
    simp only [Program.comesFrom_append, Program.comesFrom_singleton]
    refine ⟨⟨⟨⟨.read harray hv, Expression.comesFrom_code hq hindex⟩, .arithmetic⟩,
      Expression.comesFrom_code hr hvalue⟩, ?_⟩
    simp only [storeElement, Program.comesFrom_cons]
    exact ⟨.store rfl (by decide), .store rfl (by decide), .load rfl, .store rfl (by decide),
      Program.comesFrom_nil⟩
  conditional {_ _ _ elseBody _ _ _} hc _ ht he inside := by
    simp only [tokens_if, conditionTokens, blockTokens, List.cons_append, List.append_subset,
      List.cons_subset, and_assoc] at inside
    obtain ⟨-, -, -, hcondition, -, -, -, hthen, -, -, helse⟩ := inside
    -- an `else` that is missing has no tokens, and the code of an empty one
    have helse' : listTokens (elseBody.getD []) ⊆ ts := by
      cases elseBody with
      | none => exact List.nil_subset _
      | some body =>
        simp only [elseTokens, blockTokens, List.cons_append, List.cons_subset,
          List.append_subset] at helse
        exact helse.2.2.1
    simp only [Program.comesFrom_append, Program.comesFrom_cons]
    have hcode := Expression.comesFrom_code hc hcondition
    exact ⟨⟨⟨⟨⟨hcode, .arithmetic, .ifGoto, Program.comesFrom_nil⟩, ht hthen⟩, .goto, .label,
      Program.comesFrom_nil⟩, he helse'⟩, .label, Program.comesFrom_nil⟩
  loop hc hb inside := by
    simp only [tokens, conditionTokens, blockTokens, List.cons_append, List.append_subset,
      List.cons_subset, and_assoc] at inside
    obtain ⟨-, -, -, hcondition, -, -, -, hbody, -, -⟩ := inside
    simp only [Program.comesFrom_append, Program.comesFrom_cons]
    exact ⟨⟨⟨⟨⟨.label, Program.comesFrom_nil⟩, Expression.comesFrom_code hc hcondition⟩,
      .arithmetic, .ifGoto, Program.comesFrom_nil⟩, hb hbody⟩, .goto, .label, Program.comesFrom_nil⟩
  call hq inside := by
    simp only [tokens, List.append_subset, List.cons_subset, and_assoc] at inside
    obtain ⟨-, -, htarget, -⟩ := inside
    simp only [Program.comesFrom_append, Program.comesFrom_singleton]
    exact ⟨Call.comesFrom_code hq htarget, .store rfl (by decide)⟩
  returnNone _ := by
    simp only [Program.comesFrom_cons]
    exact ⟨.zero, .return, Program.comesFrom_nil⟩
  returnSome hq inside := by
    simp only [tokens, valueTokens, List.append_subset, List.cons_subset, and_assoc] at inside
    obtain ⟨-, -, hvalue, -⟩ := inside
    simp only [Program.comesFrom_append, Program.comesFrom_singleton]
    exact ⟨Expression.comesFrom_code hq hvalue, .return⟩
  nil _ := Program.comesFrom_nil
  cons _ hfirst hothers inside := by
    simp only [listTokens, List.append_subset] at inside
    exact Program.comesFrom_append.mpr ⟨hfirst inside.1, hothers inside.2⟩

theorem comesFrom_listCode {ss : List Statement} {before : LabelCount} {p : Program}
    (h : listCode scope before ss = .ok p) : p.ComesFrom scope (listTokens ss) :=
  comesFrom_cases.listCode ss h (List.Subset.refl _)

end Statement

/-! Every string in the text has its code. -/

/-- The instruction that tells the library how long a string is to be. -/
def pushLength (text : String) : Instruction := .push .constant (UInt32.ofNat text.length)

namespace Expression

theorem string_mem_commaTokens {text : String} {es : List Expression} :
    .string text ∈ commaTokens es ↔ .string text ∈ listTokens es := by
  cases es <;> simp [commaTokens, listTokens]

theorem pushLength_cases {text : String} : CodeInduction scope
    (fun e p => .string text ∈ e.tokens → pushLength text ∈ p)
    (fun t p => .string text ∈ t.tokens → pushLength text ∈ p)
    (fun c p => .string text ∈ c.tokens → pushLength text ∈ p)
    (fun es p => .string text ∈ listTokens es → pushLength text ∈ p) where
  term hp := hp
  binary hp hq h := by
    simp only [tokens, List.mem_append, List.mem_cons, reduceCtorEq, false_or] at h
    rcases h with h | h
    · simp [hp h]
    · simp [hq h]
  integer h := by simp [Term.tokens] at h
  string h := by
    simp only [Term.tokens, List.mem_singleton, Token.string.injEq] at h
    rw [h]
    exact List.mem_cons_self
  constant h := by simp [Term.tokens] at h
  read _ h := by simp [Term.tokens] at h
  element _ hp h := by simp [hp (by simpa [Term.tokens] using h)]
  parenthesized hp h := hp (by simpa [Term.tokens] using h)
  unary hp h := List.mem_append_left _ (hp (by simpa [Term.tokens] using h))
  call hp := hp
  arguments {receiver _ es _} hp h := by
    have hinside : .string text ∈ listTokens es := by
      cases receiver <;> simpa [Call.tokens] using h
    simp [hp hinside]
  nil h := by simp [listTokens] at h
  cons hp hq h := by
    simp only [listTokens, List.mem_append, string_mem_commaTokens] at h
    rcases h with h | h
    · exact List.mem_append_left _ (hp h)
    · exact List.mem_append_right _ (hq h)

theorem pushLength_mem_code {text : String} {e : Expression} {p : Program}
    (h : e.code scope = .ok p) (htext : .string text ∈ e.tokens) : pushLength text ∈ p :=
  pushLength_cases.code e h htext

end Expression

theorem Call.pushLength_mem_code {text : String} {c : Call} {p : Program}
    (h : c.code scope = .ok p) (htext : .string text ∈ c.tokens) : pushLength text ∈ p :=
  Expression.pushLength_cases.callCode c h htext

namespace Statement

theorem pushLength_cases {text : String} : CodeInduction scope
    (fun s _ p => .string text ∈ s.tokens → pushLength text ∈ p)
    (fun ss _ p => .string text ∈ listTokens ss → pushLength text ∈ p) where
  assign _ hq h := by
    have hvalue := Expression.pushLength_mem_code hq (by simpa [tokens, indexTokens] using h)
    simp [hvalue]
  assignElement {_ _ index value _ _ _} _ hq hr h := by
    have hparts : .string text ∈ index.tokens ∨ .string text ∈ value.tokens := by
      simpa [tokens, indexTokens] using h
    rcases hparts with h | h
    · simp [Expression.pushLength_mem_code hq h]
    · simp [Expression.pushLength_mem_code hr h]
  conditional {_ condition thenBody elseBody _ _ _} hc _ ht he h := by
    have helse : .string text ∈ elseTokens elseBody ↔
        .string text ∈ listTokens (elseBody.getD []) := by
      cases elseBody <;> simp [elseTokens, blockTokens, listTokens]
    have hparts : .string text ∈ condition.tokens ∨ .string text ∈ listTokens thenBody ∨
        .string text ∈ listTokens (elseBody.getD []) := by
      simpa [tokens_if, conditionTokens, blockTokens, helse] using h
    rcases hparts with h | h | h
    · simp [Expression.pushLength_mem_code hc h]
    · simp [ht h]
    · simp [he h]
  loop {_ condition body _ _} hc hb h := by
    have hparts : .string text ∈ condition.tokens ∨ .string text ∈ listTokens body := by
      simpa [tokens, conditionTokens, blockTokens] using h
    rcases hparts with h | h
    · simp [Expression.pushLength_mem_code hc h]
    · simp [hb h]
  call hq h := List.mem_append_left _ (Call.pushLength_mem_code hq (by simpa [tokens] using h))
  returnNone h := by simp [tokens, valueTokens] at h
  returnSome hq h := by
    have hvalue := Expression.pushLength_mem_code hq (by simpa [tokens, valueTokens] using h)
    exact List.mem_append_left _ hvalue
  nil h := by simp [listTokens] at h
  cons _ hfirst hothers h := by
    simp only [listTokens, List.mem_append] at h
    rcases h with h | h
    · exact List.mem_append_left _ (hfirst h)
    · exact List.mem_append_right _ (hothers h)

theorem pushLength_mem_listCode {text : String} {ss : List Statement} {before : LabelCount}
    {p : Program} (h : listCode scope before ss = .ok p) (htext : .string text ∈ listTokens ss) :
    pushLength text ∈ p := pushLength_cases.listCode ss h htext

end Statement

end Jack
