import Jack.Proofs.Class.Shape
import Jack.Proofs.Class.WellFormed
import Jack.Proofs.Frame
import Jack.Proofs.Statement.Access

/-! Accesses of a subroutine to variables. They stay inside the segments as they are laid out: below
the counts of arguments, of local variables, of fields and of static variables, of which the local
variables are those that the code makes room for and the fields those that a constructor does. The
object at hand is set once, before the first statement, and the argument that it came in is out of
reach from then on. -/

namespace Jack

/-- The instruction that reads or the one that writes the slot is in the code. -/
def Program.Uses (p : Program) (segment : Segment) (index : UInt32) : Prop :=
  .push segment index ∈ p ∨ .pop segment index ∈ p

theorem Program.uses_append {p q : Program} {segment : Segment} {index : UInt32} :
    (p ++ q).Uses segment index ↔ p.Uses segment index ∨ q.Uses segment index := by
  simp only [Uses, List.mem_append]
  tauto

theorem Program.exists_of_uses {p : Program} {segment : Segment} {index : UInt32}
    (h : p.Uses segment index) : ∃ i ∈ p, i.slot? = some (segment, index) := by
  rcases h with h | h
  · exact ⟨_, h, rfl⟩
  · exact ⟨_, h, rfl⟩

theorem VariableKind.holdsVariables_segment (kind : VariableKind) :
    kind.segment.holdsVariables := by
  cases kind <;> rfl

/-- The frames of a subroutine and of its class hold variables of different kinds. -/
theorem VariableKind.not_class_of_subroutine {kind : VariableKind}
    (h : kind = .argument ∨ kind = .local) : ¬ (kind = .static ∨ kind = .field) := by
  rcases h with rfl | rfl <;> decide

namespace Class

variable {c : Class} {s : Subroutine} {scope : Scope}

/-- How many variables of a kind a subroutine of the class has, the receiver of a method among its
arguments. -/
def slots (c : Class) (s : Subroutine) : VariableKind → Nat
  | .static => (c.variableNames .static).length
  | .field => (c.variableNames .field).length
  | .argument => s.parameters.length + if s.kind = .method then 1 else 0
  | .local => (s.body.locals.flatMap (·.names)).length

/-- What the scope of a subroutine allows its code to do with variables. -/
structure Confines (c : Class) (s : Subroutine) (scope : Scope) (body : Program) : Prop where
  bounded : ∀ kind index, (s.prologue scope ++ body).Uses kind.segment index →
    index.toNat < c.slots s kind
  header : ∃ name n, (s.prologue scope).head? = some (.function name n) ∧
    n.toNat = c.slots s .local
  allocation : s.kind = .constructor → ∃ n,
    (s.prologue scope).tail = [.push .constant n, .call "Memory.alloc" 1, .pop .pointer 0] ∧
      n.toNat = c.slots s .field
  distinct : ∀ name name' v w, name ≠ name' → scope.lookup name = some v →
    scope.lookup name' = some w → ¬ (v.segment = w.segment ∧ v.index = w.index)
  object : (s.prologue scope).count (.pop .pointer 0) = (if s.kind = .function then 0 else 1) ∧
    .pop .pointer 0 ∉ body
  receiver : s.kind = .method →
    (s.prologue scope).tail = [.push .argument 0, .pop .pointer 0] ∧ ¬ body.Uses .argument 0

theorem kind_of_mem_declarations {d : Declaration} (hd : d ∈ c.declarations) :
    d.kind = .static ∨ d.kind = .field := by
  obtain ⟨group, -, hd⟩ := List.mem_flatMap.mp hd
  obtain ⟨name, -, rfl⟩ := List.mem_map.mp hd
  show group.kind.variableKind = .static ∨ group.kind.variableKind = .field
  cases group.kind with
  | static => exact .inl rfl
  | field => exact .inr rfl

theorem countP_declarations_eq_slots (s : Subroutine) {kind : VariableKind}
    (h : kind = .static ∨ kind = .field) :
    c.declarations.countP (·.kind == kind) = c.slots s kind := by
  rcases h with rfl | rfl
  · exact c.countP_declarations .static
  · exact c.countP_declarations .field

end Class

namespace Subroutine

variable {s : Subroutine}

theorem kind_of_mem_framed {className : String} {d : Declaration} (hd : d ∈ s.framed className) :
    d.kind = .argument ∨ d.kind = .local := by
  rw [framed_eq, List.mem_append] at hd
  rcases hd with hd | hd
  · exact .inl (kind_of_mem_passed hd)
  · obtain ⟨group, -, hd⟩ := List.mem_flatMap.mp hd
    obtain ⟨name, -, rfl⟩ := List.mem_map.mp hd
    exact .inr rfl

theorem countP_locals (kind : VariableKind) (groups : List Locals) :
    (groups.flatMap fun d => d.names.map fun name =>
      (⟨name, d.type.text, .local⟩ : Declaration)).countP (·.kind == kind) =
      if kind = .local then (groups.flatMap (·.names)).length else 0 := by
  induction groups with
  | nil => simp
  | cons d ds ih =>
    rw [List.flatMap_cons, List.countP_append, ih, List.flatMap_cons, List.length_append]
    cases kind <;> simp [List.countP_map, Function.comp_def]

theorem countP_framed_eq_slots (c : Class) {kind : VariableKind}
    (h : kind = .argument ∨ kind = .local) :
    (s.framed c.name).countP (·.kind == kind) = c.slots s kind := by
  have hparameters : (s.parameters.map fun p =>
      (⟨p.name, p.type.text, .argument⟩ : Declaration)).countP (·.kind == kind) =
        if kind = .argument then s.parameters.length else 0 := by
    rcases h with rfl | rfl <;> simp [List.countP_map, Function.comp_def]
  rw [framed, declarations, List.countP_append, List.countP_append, hparameters, countP_locals]
  rcases h with rfl | rfl
  · by_cases hkind : s.kind = .method <;>
      simp [Class.slots, hkind, Scope.receiver, Nat.add_comm]
  · by_cases hkind : s.kind = .method <;> simp [Class.slots, hkind, Scope.receiver]

end Subroutine

namespace Class.Encloses

variable {c : Class} {s : Subroutine} {scope : Scope}

theorem lookup_cases (h : c.Encloses s scope) {name : String} {v : Variable}
    (hv : scope.lookup name = some v) :
    (v ∈ Frame.ofDeclarations (s.framed c.name) ∧ (v.kind = .argument ∨ v.kind = .local)) ∨
      (v ∈ Frame.ofDeclarations c.declarations ∧ (v.kind = .static ∨ v.kind = .field)) := by
  obtain ⟨-, frame, hframe, hmem⟩ := Scope.exists_of_lookup hv
  rw [h.frame, h.outer, List.mem_cons, List.mem_singleton] at hframe
  rcases hframe with rfl | rfl
  · obtain ⟨k, hk, -⟩ := Frame.mem_ofDeclarations.mp hmem
    exact .inl ⟨hmem, Subroutine.kind_of_mem_framed (List.mem_of_getElem? hk)⟩
  · obtain ⟨k, hk, -⟩ := Frame.mem_ofDeclarations.mp hmem
    exact .inr ⟨hmem, Class.kind_of_mem_declarations (List.mem_of_getElem? hk)⟩

variable (few : c.allDeclarations.length < 2 ^ 32 - 1) (hs : s ∈ c.subroutines)

include few hs

theorem framed_few : (s.framed c.name).length < 2 ^ 32 := by
  have hle := Class.length_framed_le hs
  omega

omit hs in
theorem declarations_few : c.declarations.length < 2 ^ 32 := by
  have hle := c.length_declarations_le
  omega

/-- A variable that a subroutine can name is in one of the slots that it has. -/
theorem index_lt (h : c.Encloses s scope) {name : String} {v : Variable}
    (hv : scope.lookup name = some v) : v.index.toNat < c.slots s v.kind := by
  rcases h.lookup_cases hv with ⟨hmem, hkind⟩ | ⟨hmem, hkind⟩
  · have hlt := Frame.index_lt (framed_few few hs) hmem
    rwa [Subroutine.countP_framed_eq_slots c hkind] at hlt
  · have hlt := Frame.index_lt (declarations_few few) hmem
    rwa [Class.countP_declarations_eq_slots s hkind] at hlt

/-- Two names for one slot are one name. -/
theorem name_eq_of_slot (h : c.Encloses s scope) {name name' : String} {v w : Variable}
    (hv : scope.lookup name = some v) (hw : scope.lookup name' = some w)
    (hsegment : v.segment = w.segment) (hindex : v.index = w.index) : name = name' := by
  have hkind : v.kind = w.kind := VariableKind.segment_injective hsegment
  obtain ⟨hname, -⟩ := Scope.exists_of_lookup hv
  obtain ⟨hname', -⟩ := Scope.exists_of_lookup hw
  -- in one frame the slot tells the variable, and the kind tells the frame
  rcases h.lookup_cases hv with ⟨hmem, hv'⟩ | ⟨hmem, hv'⟩ <;>
    rcases h.lookup_cases hw with ⟨hmem', hw'⟩ | ⟨hmem', hw'⟩
  · rw [← hname, ← hname', Frame.eq_of_slot (framed_few few hs) hmem hmem' hkind hindex]
  · rw [hkind] at hv'
    exact absurd hw' (VariableKind.not_class_of_subroutine hv')
  · rw [hkind] at hv'
    exact absurd hv' (VariableKind.not_class_of_subroutine hw')
  · rw [← hname, ← hname', Frame.eq_of_slot (declarations_few few) hmem hmem' hkind hindex]

omit few hs in
/-- What a call passes is numbered from 0, for no other argument stands in front of it. -/
theorem lookup_passed (h : c.Encloses s scope) {n : Nat} {d : Declaration}
    (hd : (s.passed c.name)[n]? = some d) : scope.lookup d.name = some ⟨d, UInt32.ofNat n⟩ := by
  have hn : n < (s.passed c.name).length := (List.getElem?_eq_some_iff.mp hd).1
  have hkind : d.kind = .argument := Subroutine.kind_of_mem_passed (List.mem_of_getElem? hd)
  have hcount : ((s.framed c.name).take n).countP (·.kind == d.kind) = n := by
    have hall : ∀ e ∈ (s.passed c.name).take n, e.kind == d.kind := fun e he => by
      rw [hkind, Subroutine.kind_of_mem_passed (List.mem_of_mem_take he)]
      rfl
    rw [Subroutine.framed_eq, List.take_append_of_le_length hn.le,
      List.countP_eq_length.mpr hall, List.length_take, Nat.min_eq_left hn.le]
  have hmem : (⟨d, UInt32.ofNat n⟩ : Variable) ∈ scope.frame := by
    rw [h.frame, Frame.mem_ofDeclarations]
    refine ⟨n, ?_, by rw [hcount]⟩
    rwa [Subroutine.framed_eq, List.getElem?_append_left hn]
  exact Scope.lookup_name h.nodup hmem

omit few hs in
/-- A method gets its receiver in argument 0. -/
theorem lookup_this (h : c.Encloses s scope) (hkind : s.kind = .method) :
    scope.lookup "this" = some ⟨Scope.receiver c.name, 0⟩ := by
  have hfirst : (s.passed c.name)[0]? = some (Scope.receiver c.name) := by
    rw [Subroutine.passed, if_pos hkind]
    rfl
  exact h.lookup_passed hfirst

theorem toNat_count (h : c.Encloses s scope) : (scope.count .local).toNat = c.slots s .local := by
  have hfew := framed_few few hs
  have hcount : (s.framed c.name).countP (·.kind == .local) = c.slots s .local :=
    Subroutine.countP_framed_eq_slots c (.inr rfl)
  have hle : (s.framed c.name).countP (·.kind == .local) ≤ (s.framed c.name).length :=
    List.countP_le_length
  rw [Scope.count, h.frame, Frame.count_ofDeclarations, UInt32.toNat_ofNat',
    Nat.mod_eq_of_lt (by omega), hcount]

omit hs in
theorem toNat_fieldCount (h : c.Encloses s scope) :
    scope.fieldCount.toNat = c.slots s .field := by
  have hfew := declarations_few few
  have hcount : c.declarations.countP (·.kind == .field) = c.slots s .field :=
    Class.countP_declarations_eq_slots s (.inr rfl)
  have hle : c.declarations.countP (·.kind == .field) ≤ c.declarations.length :=
    List.countP_le_length
  rw [Scope.fieldCount, h.outer, List.getLast?_singleton, Option.getD_some,
    Frame.count_ofDeclarations, UInt32.toNat_ofNat', Nat.mod_eq_of_lt (by omega), hcount]

end Class.Encloses

namespace Program.Keeps

variable {scope : Scope} {body : Program}

theorem exists_of_uses (h : body.Keeps scope) {kind : VariableKind} {index : UInt32}
    (huses : body.Uses kind.segment index) :
    ∃ name v, name ≠ "this" ∧ scope.lookup name = some v ∧ v.kind = kind ∧ v.index = index := by
  obtain ⟨i, hi, hslot⟩ := Program.exists_of_uses huses
  obtain ⟨name, v, hname, hv, hsegment, hindex⟩ :=
    (h i hi).named kind.segment index hslot kind.holdsVariables_segment
  exact ⟨name, v, hname, hv, VariableKind.segment_injective hsegment, hindex⟩

end Program.Keeps

namespace Subroutine

variable {s : Subroutine} {scope : Scope}

/-- Only a method uses a variable before its first statement. -/
theorem uses_prologue {kind : VariableKind} {index : UInt32}
    (h : (s.prologue scope).Uses kind.segment index) :
    s.kind = .method ∧ kind = .argument ∧ index = 0 := by
  unfold prologue Program.Uses at h
  cases hs : s.kind <;> rw [hs] at h <;> cases kind <;> simp [VariableKind.segment] at h ⊢
  exact h

theorem count_object_prologue (s : Subroutine) (scope : Scope) :
    (s.prologue scope).count (.pop .pointer 0) = if s.kind = .function then 0 else 1 := by
  unfold prologue
  cases s.kind <;> rfl

end Subroutine

namespace Class

variable {c : Class} {s : Subroutine} {scope : Scope}

theorem Encloses.confines (h : c.Encloses s scope) (few : c.allDeclarations.length < 2 ^ 32 - 1)
    (hs : s ∈ c.subroutines) {body : Program} (keeps : body.Keeps scope) :
    c.Confines s scope body where
  bounded kind index huses := by
    rcases Program.uses_append.mp huses with huses | huses
    · obtain ⟨hmethod, rfl, rfl⟩ := Subroutine.uses_prologue huses
      rw [slots, if_pos hmethod]
      exact Nat.succ_pos _
    · obtain ⟨name, v, -, hv, rfl, rfl⟩ := keeps.exists_of_uses huses
      exact index_lt few hs h hv
  header := ⟨_, _, rfl, toNat_count few hs h⟩
  allocation hkind := by
    refine ⟨scope.fieldCount, ?_, toNat_fieldCount few h⟩
    rw [Subroutine.prologue, hkind, List.tail_cons]
  distinct name name' v w hne hv hw := by
    rintro ⟨hsegment, hindex⟩
    exact hne (name_eq_of_slot few hs h hv hw hsegment hindex)
  object := by
    refine ⟨s.count_object_prologue scope, fun hmem => ?_⟩
    exact (keeps _ hmem).object rfl
  receiver hkind := by
    refine ⟨by rw [Subroutine.prologue, hkind, List.tail_cons], fun huses => ?_⟩
    -- another name in the slot of the receiver would be `this`
    have hargument : body.Uses (VariableKind.segment .argument) 0 := huses
    obtain ⟨name, v, hname, hv, hslot, hindex⟩ := keeps.exists_of_uses hargument
    have hthis := h.lookup_this hkind
    exact hname (name_eq_of_slot few hs h hv hthis (congrArg VariableKind.segment hslot) hindex)

theorem unreserved_of_wellFormed (h : c.wellFormed) : Unreserved c.tokens := by
  obtain ⟨-, htokens⟩ := c.wellFormed_iff.mp h
  intro hmem
  have hname := List.all_eq_true.mp htokens _ hmem
  rw [Token.wellFormed_identifier, isName_this] at hname
  cases hname

theorem unreserved_statements (h : Unreserved c.tokens) (hs : s ∈ c.subroutines) :
    Unreserved (Statement.listTokens s.body.statements) := by
  intro hmem
  have hsubroutine : Token.identifier "this" ∈ s.tokens := by
    simp [Subroutine.tokens, SubroutineBody.tokens, hmem]
  have hall : Token.identifier "this" ∈ c.subroutines.flatMap Subroutine.tokens :=
    List.mem_flatMap.mpr ⟨s, hs, hsubroutine⟩
  exact h (by simp [tokens, hall])

/-- The code of each subroutine uses the slots that were laid out for it, where no name is `this`,
as in every text, and words can count the declarations. -/
theorem accesses_confined :
    (∀ text c, Source.parse text = .ok c → Unreserved c.tokens) ∧
      ∀ (c : Class) (p : Program), c.code = .ok p → Unreserved c.tokens →
        c.allDeclarations.length < 2 ^ 32 - 1 →
        ∀ (k : Nat) (block : Program), p.functions[k]? = some block →
          ∃ s scope body, c.subroutines[k]? = some s ∧ c.scope >>= s.scope = .ok scope ∧
            block = s.prologue scope ++ body ∧ c.Confines s scope body := by
  refine ⟨fun text c h => unreserved_of_wellFormed (Source.wellFormed_of_parse h), ?_⟩
  intro c p hp free few k block hblock
  obtain ⟨outer, houter, hcode⟩ := code_eq_ok hp
  obtain ⟨s, earlier, scope, body, hs, hscope, hbody, rfl⟩ :=
    Subroutine.exists_of_functions_listCode hcode hblock
  have hmem : s ∈ c.subroutines := List.mem_of_getElem? hs
  have hencloses : c.Encloses s scope := encloses_of_scope houter hscope
  have hkeeps : body.Keeps scope :=
    Statement.keeps_listCode hbody (unreserved_statements free hmem)
  have hchain : c.scope >>= s.scope = .ok scope := by rw [houter]; exact hscope
  exact ⟨s, scope, body, hs, hchain, rfl, hencloses.confines few hmem hkeeps⟩

end Class

/-- The method reads argument 2 and no further, though it names only two parameters. -/
theorem accesses_confined_summing :
    Source.parse summing.text = .ok summing ∧ summing.code = .ok summingCode ∧
      Unreserved summing.tokens ∧ summing.allDeclarations.length < 2 ^ 32 - 1 ∧
      summingCode.functions[0]? = some summingCode ∧ summingCode.Uses .argument 2 ∧
      ∃ s scope body, summing.subroutines[0]? = some s ∧
        summing.scope >>= s.scope = .ok scope ∧ summingCode = s.prologue scope ++ body ∧
        summing.Confines s scope body := by
  have hparse : Source.parse summing.text = .ok summing := Source.parse_text (by decide)
  have hcode : summing.code = .ok summingCode := rfl
  have hfew : summing.allDeclarations.length < 2 ^ 32 - 1 := by decide
  have hblock : summingCode.functions[0]? = some summingCode := rfl
  have huses : summingCode.Uses .argument 2 := .inl (by decide)
  have free := Class.accesses_confined.1 summing.text summing hparse
  exact ⟨hparse, hcode, free, hfew, hblock, huses,
    Class.accesses_confined.2 summing summingCode hcode free hfew 0 summingCode hblock⟩

end Jack
