import Mathlib.Algebra.Group.Nat.Defs
import Mathlib.Data.List.Induction
import Mathlib.Data.List.Nodup
import Jack.Class.Code
import Jack.Proofs.Scope

/-! Slots of variables. Declarations that are accepted stand in the frame as they were made, each
with the number of those of its kind in front of it. While words of 32 bits can count them, the
numbers of a kind stay below their count, and no two variables of a frame share a slot. -/

namespace Jack

theorem countP_take_lt {α : Type} {p : α → Bool} {xs : List α} {a : α} {k n : Nat}
    (hk : xs[k]? = some a) (ha : p a) (hn : k < n) :
    (xs.take k).countP p < (xs.take n).countP p := by
  have hnext : (xs.take (k + 1)).countP p = (xs.take k).countP p + 1 := by
    rw [List.take_add_one, hk, Option.toList_some, List.countP_append, List.countP_singleton,
      if_pos ha]
  have hlater : (xs.take (k + 1)).countP p ≤ (xs.take n).countP p :=
    (List.take_sublist_take_left hn).countP_le
  omega

theorem VariableKind.segment_injective : Function.Injective segment := by
  intro a b h
  cases a <;> cases b <;> first | rfl | cases h

namespace Frame

/-- The frame that holds these declarations and no others. -/
def ofDeclarations (ds : List Declaration) : Frame := ds.foldl add []

variable {ds : List Declaration} {v w : Variable}

theorem ofDeclarations_concat (ds : List Declaration) (d : Declaration) :
    ofDeclarations (ds ++ [d]) = (ofDeclarations ds).add d := by
  rw [ofDeclarations, ofDeclarations, List.foldl_append, List.foldl_cons, List.foldl_nil]

theorem map_toDeclaration (ds : List Declaration) :
    (ofDeclarations ds).map (·.toDeclaration) = ds := by
  induction ds using List.reverseRecOn with
  | nil => rfl
  | append_singleton ds d ih =>
    rw [ofDeclarations_concat, add, List.map_append, ih, List.map_singleton]

theorem length_ofDeclarations (ds : List Declaration) : (ofDeclarations ds).length = ds.length := by
  rw [← List.length_map (f := (·.toDeclaration)), map_toDeclaration]

theorem count_ofDeclarations (ds : List Declaration) (kind : VariableKind) :
    (ofDeclarations ds).count kind = UInt32.ofNat (ds.countP (·.kind == kind)) := by
  have hcount : (ofDeclarations ds).countP (·.kind == kind) = ds.countP (·.kind == kind) := by
    conv_rhs => rw [← map_toDeclaration ds, List.countP_map]
    rfl
  rw [count, hcount]

/-- A variable has the number of earlier ones of its kind. -/
theorem getElem?_ofDeclarations (ds : List Declaration) (k : Nat) :
    (ofDeclarations ds)[k]? =
      ds[k]?.map fun d => ⟨d, UInt32.ofNat ((ds.take k).countP (·.kind == d.kind))⟩ := by
  induction ds using List.reverseRecOn with
  | nil => simp [ofDeclarations]
  | append_singleton ds d ih =>
    rcases Nat.lt_trichotomy k ds.length with hk | rfl | hk
    · have hk' : k < (ofDeclarations ds).length := by rwa [length_ofDeclarations]
      rw [ofDeclarations_concat, add, List.getElem?_append_left hk', List.getElem?_append_left hk,
        ih, List.take_append_of_le_length (Nat.le_of_lt hk)]
    · have hlast : (ofDeclarations ds).length ≤ ds.length := Nat.le_of_eq (length_ofDeclarations ds)
      rw [ofDeclarations_concat, add, List.getElem?_append_right hlast, length_ofDeclarations,
        List.take_left]
      simp [count_ofDeclarations]
    · have hout : (ds ++ [d]).length ≤ k := by rwa [List.length_append]
      have hout' : (ofDeclarations (ds ++ [d])).length ≤ k := by rwa [length_ofDeclarations]
      rw [List.getElem?_eq_none hout, List.getElem?_eq_none hout']
      rfl

theorem mem_ofDeclarations :
    v ∈ ofDeclarations ds ↔ ∃ k, ds[k]? = some v.toDeclaration ∧
      v.index = UInt32.ofNat ((ds.take k).countP (·.kind == v.kind)) := by
  rw [List.mem_iff_getElem?]
  refine exists_congr fun k => ?_
  rw [getElem?_ofDeclarations, Option.map_eq_some_iff]
  constructor
  · rintro ⟨d, hd, rfl⟩
    exact ⟨hd, rfl⟩
  · rintro ⟨hd, hindex⟩
    refine ⟨v.toDeclaration, hd, ?_⟩
    rw [← hindex]

theorem toNat_index (few : ds.length < 2 ^ 32) (hv : v ∈ ofDeclarations ds) :
    ∃ k, ds[k]? = some v.toDeclaration ∧
      v.index.toNat = (ds.take k).countP (·.kind == v.kind) := by
  obtain ⟨k, hk, hindex⟩ := mem_ofDeclarations.mp hv
  have hle : (ds.take k).countP (·.kind == v.kind) ≤ ds.length :=
    Nat.le_trans List.countP_le_length (List.length_take_le' k ds)
  refine ⟨k, hk, ?_⟩
  rw [hindex, UInt32.toNat_ofNat', Nat.mod_eq_of_lt (by omega)]

theorem index_lt (few : ds.length < 2 ^ 32) (hv : v ∈ ofDeclarations ds) :
    v.index.toNat < ds.countP (·.kind == v.kind) := by
  obtain ⟨k, hk, hindex⟩ := toNat_index few hv
  have hlt : k < ds.length := (List.getElem?_eq_some_iff.mp hk).1
  have hcount := countP_take_lt (p := (·.kind == v.kind)) hk (beq_self_eq_true _) hlt
  rwa [List.take_length, ← hindex] at hcount

/-- Two variables of a frame in the same slot are the same one. -/
theorem eq_of_slot (few : ds.length < 2 ^ 32) (hv : v ∈ ofDeclarations ds)
    (hw : w ∈ ofDeclarations ds) (hkind : v.kind = w.kind) (hindex : v.index = w.index) :
    v = w := by
  obtain ⟨k, hk, hvk⟩ := toNat_index few hv
  obtain ⟨n, hn, hwn⟩ := toNat_index few hw
  rw [hindex, hwn, hkind] at hvk
  -- the one that comes later has the greater number
  rcases Nat.lt_trichotomy k n with hlt | rfl | hlt
  · have hcount := countP_take_lt (p := (·.kind == w.kind)) hk (beq_iff_eq.mpr hkind) hlt
    omega
  · rw [hk, Option.some.injEq] at hn
    cases v
    cases w
    simp_all
  · have hcount := countP_take_lt (p := (·.kind == w.kind)) hn (beq_self_eq_true _) hlt
    omega

theorem name_of_find {frame : Frame} {name : String} (h : frame.find name = some v) :
    v.name = name := by
  have hname := List.find?_some h
  exact beq_iff_eq.mp hname

theorem find_name {frame : Frame} (hnodup : (frame.map (·.name)).Nodup) (hv : v ∈ frame) :
    frame.find v.name = some v := by
  cases hfound : frame.find v.name with
  | none => exact absurd rfl (find_eq_none_iff.mp hfound v hv)
  | some w =>
    have hmem : w ∈ frame := List.mem_of_find?_eq_some hfound
    rw [List.inj_on_of_nodup_map hnodup hmem hv (name_of_find hfound)]

end Frame

namespace Scope

variable {scope scope' : Scope} {ds : List Declaration}

theorem exists_of_lookup {name : String} {v : Variable} (h : scope.lookup name = some v) :
    v.name = name ∧ ∃ frame ∈ scope.frame :: scope.outer, v ∈ frame := by
  obtain ⟨frame, hframe, hfind⟩ := List.exists_of_findSome?_eq_some h
  exact ⟨Frame.name_of_find hfind, frame, hframe, List.mem_of_find?_eq_some hfind⟩

theorem lookup_name (hnodup : scope.names.Nodup) {v : Variable} (hv : v ∈ scope.frame) :
    scope.lookup v.name = some v := by
  rw [lookup, List.findSome?_cons, Frame.find_name hnodup hv]

/-- Declarations that are accepted are added as they stand, and no name was taken before. -/
theorem frame_of_declareAll {earlier : List Declaration}
    (hframe : scope.frame = .ofDeclarations earlier) (hnodup : scope.names.Nodup)
    (h : scope.declareAll ds = .ok scope') :
    scope'.frame = .ofDeclarations (earlier ++ ds) ∧ scope'.names.Nodup := by
  induction ds generalizing scope earlier with
  | nil =>
    cases h
    rw [List.append_nil]
    exact ⟨hframe, hnodup⟩
  | cons d ds ih =>
    rw [declareAll_cons] at h
    by_cases hd : d.name ∈ scope.names
    · rw [declare_of_mem hd] at h
      cases h
    · rw [declare_of_not_mem hd] at h
      have hnext : scope.frame.add d = .ofDeclarations (earlier ++ [d]) := by
        rw [Frame.ofDeclarations_concat, hframe]
      have hnames : (names { scope with frame := scope.frame.add d }).Nodup := by
        rw [names_add, ← List.concat_eq_append]
        exact List.Nodup.concat hd hnodup
      rw [← List.singleton_append, ← List.append_assoc]
      exact ih hnext hnames h

end Scope

/-! The frames of a class. -/

/-- What is declared in the scope of a subroutine, the receiver of a method included. -/
def Subroutine.framed (className : String) (s : Subroutine) : List Declaration :=
  (if s.kind = .method then [Scope.receiver className] else []) ++ s.declarations

/-- The part of it that a call passes: the receiver and the parameters. -/
def Subroutine.passed (className : String) (s : Subroutine) : List Declaration :=
  (if s.kind = .method then [Scope.receiver className] else []) ++
    s.parameters.map fun p => ⟨p.name, p.type.text, .argument⟩

theorem Subroutine.framed_eq (className : String) (s : Subroutine) :
    s.framed className = s.passed className ++
      s.body.locals.flatMap fun d => d.names.map fun name => ⟨name, d.type.text, .local⟩ :=
  (List.append_assoc _ _ _).symm

theorem Subroutine.kind_of_mem_passed {className : String} {s : Subroutine} {d : Declaration}
    (hd : d ∈ s.passed className) : d.kind = .argument := by
  rw [passed, List.mem_append] at hd
  rcases hd with hd | hd
  · split at hd
    · rw [List.mem_singleton.mp hd]
      rfl
    · exact absurd hd List.not_mem_nil
  · obtain ⟨p, -, rfl⟩ := List.mem_map.mp hd
    rfl

theorem Subroutine.getElem?_passed {className : String} {s : Subroutine} {k : Nat}
    {p : Parameter} (hp : s.parameters[k]? = some p) :
    (s.passed className)[(if s.kind = .method then 1 else 0) + k]? =
      some ⟨p.name, p.type.text, .argument⟩ := by
  by_cases hkind : s.kind = .method <;> simp [passed, hkind, hp, Nat.add_comm 1]

namespace Class

/-- All that is declared in a class, in the order of the text. -/
def allDeclarations (c : Class) : List Declaration :=
  c.declarations ++ c.subroutines.flatMap Subroutine.declarations

/-- The names of the static variables or of the fields of a class. -/
def variableNames (kind : ClassVariableKind) (c : Class) : List String :=
  (c.varDecs.filter (·.kind = kind)).flatMap (·.names)

/-- The scope in which the statements of a subroutine are compiled. -/
structure Encloses (c : Class) (s : Subroutine) (scope : Scope) : Prop where
  className : scope.className = c.name
  frame : scope.frame = .ofDeclarations (s.framed c.name)
  outer : scope.outer = [.ofDeclarations c.declarations]
  nodup : scope.names.Nodup

theorem encloses_of_scope {c : Class} {s : Subroutine} {outer scope : Scope}
    (houter : c.scope = .ok outer) (hscope : s.scope outer = .ok scope) : c.Encloses s scope := by
  obtain ⟨hclass, hnone, -⟩ := Scope.of_declareAll houter
  have hempty : (Scope.mk c.name [] []).frame = .ofDeclarations [] := rfl
  obtain ⟨hfields, -⟩ := Scope.frame_of_declareAll hempty List.nodup_nil houter
  obtain ⟨hname, hchain, -⟩ := Scope.of_declareAll hscope
  have hreceiver : (outer.enter (s.kind = .method)).frame =
      .ofDeclarations (if s.kind = .method then [Scope.receiver c.name] else []) := by
    by_cases hkind : s.kind = .method <;> simp [Scope.enter, hkind, hclass] <;> rfl
  have hnodup : (outer.enter (s.kind = .method)).names.Nodup := by
    rw [Scope.names_enter]
    split <;> simp
  obtain ⟨hframe, hnames⟩ := Scope.frame_of_declareAll hreceiver hnodup hscope
  refine ⟨hname.trans hclass, hframe, ?_, hnames⟩
  rw [hchain, Scope.enter, hfields, hnone]
  rfl

theorem length_declarations_le (c : Class) : c.declarations.length ≤ c.allDeclarations.length := by
  rw [allDeclarations, List.length_append]
  exact Nat.le_add_right _ _

theorem length_framed_le {c : Class} {s : Subroutine} (hs : s ∈ c.subroutines) :
    (s.framed c.name).length ≤ c.allDeclarations.length + 1 := by
  have hsub : s.declarations.length ≤
      (c.subroutines.flatMap Subroutine.declarations).length :=
    (List.sublist_flatten_of_mem (List.mem_map_of_mem hs)).length_le
  rw [Subroutine.framed, allDeclarations, List.length_append, List.length_append]
  split
  · rw [List.length_singleton]
    omega
  · rw [List.length_nil]
    omega

theorem countP_declarations (c : Class) (kind : ClassVariableKind) :
    c.declarations.countP (·.kind == kind.variableKind) = (c.variableNames kind).length := by
  have hinjective (a : ClassVariableKind) :
      (a.variableKind == kind.variableKind) = decide (a = kind) := by
    cases a <;> cases kind <;> rfl
  unfold declarations variableNames
  induction c.varDecs with
  | nil => rfl
  | cons d ds ih =>
    rw [List.flatMap_cons, List.countP_append, ih, List.filter_cons]
    by_cases hkind : d.kind = kind <;> simp [List.countP_map, Function.comp_def, hinjective, hkind]

end Class

end Jack
