import Jack.Proofs.Frame

/-! Chains of scopes, through all declarations that are tried in them and all scopes that are
entered and left. A trail keeps what was tried, accepted or not. It tells what every scope of the
chain holds, and so the answer to every question about a name or a number. -/

namespace Jack.Scope

/-- Of declarations tried in one scope those that it accepts, which is the first of each name. -/
def accepted (ds : List Declaration) : List Declaration :=
  ds.eraseDupsBy fun d earlier => d.name == earlier.name

/-- The variable that a scope in which these declarations were tried has under a name. Its number
is that of the earlier variables of its kind. -/
def found? (name : String) (ds : List Declaration) : Option Variable :=
  (ds.find? (·.name == name)).map fun d =>
    ⟨d, UInt32.ofNat (((accepted ds).takeWhile (·.name != name)).countP (·.kind == d.kind))⟩

/-- Back in the scope around this one, as it was when this one was entered. The outermost scope is
not left. -/
def leave (scope : Scope) : Scope :=
  match scope.outer with
  | [] => scope
  | frame :: outer => { scope with frame := frame, outer := outer }

/-- What can be done with a chain of scopes, always at its innermost scope. -/
inductive Move
  | declare (d : Declaration)
  | enter (method : Bool)
  | leave

def Move.declares : Move → Bool
  | .declare _ => true
  | _ => false

/-- A declaration that fails leaves the scope as it is. -/
def move (scope : Scope) : Move → Scope
  | .declare d =>
    match scope.declare d with
    | .ok next => next
    | .error _ => scope
  | .enter method => scope.enter method
  | .leave => scope.leave

def run (className : String) (moves : List Move) : Scope :=
  moves.foldl move { className := className }

/-- What was tried in the scopes of a chain. The receiver of a method is the first declaration in
its scope. -/
structure Trail where
  tried : List Declaration := []
  /-- The same for the scopes around, innermost first. -/
  outer : List (List Declaration) := []

namespace Trail

def chain (trail : Trail) : List (List Declaration) := trail.tried :: trail.outer

def outermost (trail : Trail) : List Declaration := trail.outer.getLast?.getD trail.tried

def move (className : String) (trail : Trail) : Move → Trail
  | .declare d => { trail with tried := trail.tried ++ [d] }
  | .enter method => ⟨if method then [receiver className] else [], trail.chain⟩
  | .leave =>
    match trail.outer with
    | [] => trail
    | tried :: outer => ⟨tried, outer⟩

def run (className : String) (moves : List Move) : Trail := moves.foldl (move className) {}

theorem length_le_of_move (className : String) {n : Nat} {trail : Trail}
    (h : ∀ ds ∈ trail.chain, ds.length ≤ n + 1) (m : Move) :
    ∀ ds ∈ (trail.move className m).chain, ds.length ≤ n + [m].countP Move.declares + 1 := by
  obtain ⟨tried, outer⟩ := trail
  intro ds hds
  cases m with
  | declare d =>
    rcases List.mem_cons.mp hds with rfl | hds
    · show (tried ++ [d]).length ≤ n + 1 + 1
      rw [List.length_append]
      exact Nat.add_le_add_right (h tried List.mem_cons_self) 1
    · exact Nat.le_succ_of_le (h ds (List.mem_cons_of_mem _ hds))
  | enter method =>
    rcases List.mem_cons.mp hds with rfl | hds
    · cases method <;> exact Nat.le_add_left _ _
    · exact h ds hds
  | leave =>
    cases outer with
    | nil => exact h ds hds
    | cons around outer => exact h ds (List.mem_cons_of_mem _ hds)

/-- A scope holds at most its receiver and all declarations that were tried. -/
theorem length_le_of_run (className : String) (moves : List Move) :
    ∀ ds ∈ (run className moves).chain, ds.length ≤ moves.countP Move.declares + 1 := by
  induction moves using List.reverseRecOn with
  | nil =>
    intro ds hds
    rw [List.mem_singleton.mp hds]
    exact Nat.zero_le 1
  | append_singleton moves m ih =>
    rw [run, List.foldl_concat, List.countP_append]
    exact length_le_of_move className ih m

end Trail

/-! What a scope accepts. -/

theorem loop_concat {α : Type} (same : α → α → Bool) (as : List α) (a : α) (kept : List α) :
    List.eraseDupsBy.loop same (as ++ [a]) kept =
      if (List.eraseDupsBy.loop same as kept).any (same a) then
        List.eraseDupsBy.loop same as kept
      else List.eraseDupsBy.loop same as kept ++ [a] := by
  induction as generalizing kept with
  | nil =>
    rw [List.nil_append, List.eraseDupsBy.loop]
    cases h : kept.any (same a) <;> simp [List.eraseDupsBy.loop, h]
  | cons b as ih =>
    rw [List.cons_append, List.eraseDupsBy.loop, List.eraseDupsBy.loop]
    cases kept.any (same b) with
    | true => exact ih kept
    | false => exact ih (b :: kept)

theorem accepted_concat (ds : List Declaration) (d : Declaration) :
    accepted (ds ++ [d]) =
      if d.name ∈ (accepted ds).map (·.name) then accepted ds else accepted ds ++ [d] := by
  have hmem : ((accepted ds).any fun earlier => d.name == earlier.name) = true ↔
      d.name ∈ (accepted ds).map (·.name) := by
    rw [List.any_eq_true, List.mem_map]
    simp only [beq_iff_eq]
    exact exists_congr fun earlier => and_congr_right fun _ => eq_comm
  have hloop := loop_concat (fun d earlier : Declaration => d.name == earlier.name) ds d []
  change accepted (ds ++ [d]) = _ at hloop
  rw [hloop]
  exact if_congr hmem rfl rfl

/-- The first declaration of a name is the one that counts. -/
theorem find?_accepted (ds : List Declaration) (name : String) :
    (accepted ds).find? (·.name == name) = ds.find? (·.name == name) := by
  induction ds using List.reverseRecOn with
  | nil => rfl
  | append_singleton ds d ih =>
    rw [accepted_concat, List.find?_append]
    split
    · next hd =>
      rw [ih]
      by_cases hname : d.name = name
      · -- the name was there, so nothing is found at the end
        obtain ⟨earlier, hmem, hearlier⟩ := List.mem_map.mp hd
        have hsome : ((accepted ds).find? (·.name == name)).isSome :=
          List.find?_isSome.mpr ⟨earlier, hmem, beq_iff_eq.mpr (hearlier.trans hname)⟩
        rw [ih] at hsome
        exact (Option.or_of_isSome hsome).symm
      · simp [hname]
    · rw [List.find?_append, ih]

theorem mem_names_accepted {ds : List Declaration} {name : String} :
    name ∈ (accepted ds).map (·.name) ↔ name ∈ ds.map (·.name) := by
  have hfound (ds : List Declaration) :
      name ∈ ds.map (·.name) ↔ (ds.find? (·.name == name)).isSome := by
    simp [List.find?_isSome]
  rw [hfound, hfound, find?_accepted]

theorem length_accepted_le (ds : List Declaration) : (accepted ds).length ≤ ds.length := by
  induction ds using List.reverseRecOn with
  | nil => exact Nat.le_refl 0
  | append_singleton ds d ih =>
    rw [accepted_concat, List.length_append]
    split
    · exact Nat.le_add_right_of_le ih
    · rw [List.length_append]
      exact Nat.add_le_add_right ih 1

/-! The frame of the accepted declarations. -/

theorem toNat_count_ofDeclarations {ds : List Declaration} (few : ds.length < 2 ^ 32)
    (kind : VariableKind) :
    ((Frame.ofDeclarations ds).count kind).toNat = ds.countP (·.kind == kind) := by
  have hle : ds.countP (·.kind == kind) ≤ ds.length := List.countP_le_length
  rw [Frame.count_ofDeclarations, UInt32.toNat_ofNat', Nat.mod_eq_of_lt (by omega)]

theorem indices_ofDeclarations {ds : List Declaration} (few : ds.length < 2 ^ 32)
    (kind : VariableKind) :
    ((Frame.ofDeclarations ds).filter (·.kind == kind)).map (·.index.toNat) =
      List.range (ds.countP (·.kind == kind)) := by
  induction ds using List.reverseRecOn with
  | nil => rfl
  | append_singleton ds d ih =>
    rw [List.length_append, List.length_singleton] at few
    rw [Frame.ofDeclarations_concat, Frame.add, List.filter_append, List.map_append,
      ih (by omega), List.countP_append]
    by_cases hkind : d.kind = kind
    · subst hkind
      have hindex : ((Frame.ofDeclarations ds).count d.kind).toNat =
          ds.countP (·.kind == d.kind) := toNat_count_ofDeclarations (by omega) _
      simp [hindex, List.range_succ]
    · simp [hkind]

/-- A name is found as it was first declared, with the number of earlier declarations of its
kind. -/
theorem find_ofDeclarations (ds : List Declaration) (name : String) :
    (Frame.ofDeclarations ds).find name = (ds.find? (·.name == name)).map fun d =>
      ⟨d, UInt32.ofNat ((ds.takeWhile (·.name != name)).countP (·.kind == d.kind))⟩ := by
  induction ds using List.reverseRecOn with
  | nil => rfl
  | append_singleton ds d ih =>
    rw [Frame.ofDeclarations_concat, Frame.find_add, ih, List.find?_append,
      Frame.count_ofDeclarations]
    cases hfind : ds.find? (·.name == name) with
    | some first =>
      obtain ⟨hname, before, after, rfl, hbefore⟩ := List.find?_eq_some_iff_append.mp hfind
      -- those in front of the first are the same whatever is behind it
      have hfront (behind : List Declaration) :
          (before ++ first :: behind).takeWhile (·.name != name) = before := by
        have hother : ∀ earlier ∈ before, (earlier.name != name) = true := hbefore
        have hstop : ¬ (first.name != name) = true := by simpa using hname
        rw [List.takeWhile_append_of_pos hother, List.takeWhile_cons, if_neg hstop,
          List.append_nil]
      rw [List.append_assoc, List.cons_append, hfront, hfront]
      simp
    | none =>
      have hnone : ∀ earlier ∈ ds, (earlier.name != name) = true := by
        intro earlier hmem
        simpa using List.find?_eq_none.mp hfind earlier hmem
      rw [List.takeWhile_append_of_pos hnone]
      by_cases hname : d.name = name
      · simp [hname]
      · simp [hname]

/-! Every scope of a chain holds what its trail tells. -/

structure Follows (className : String) (scope : Scope) (trail : Trail) : Prop where
  className : scope.className = className
  frame : scope.frame = .ofDeclarations (accepted trail.tried)
  outer : scope.outer = trail.outer.map fun ds => .ofDeclarations (accepted ds)

namespace Follows

variable {className : String} {scope : Scope} {trail : Trail}

theorem names_eq (h : Follows className scope trail) :
    scope.names = (accepted trail.tried).map (·.name) := by
  rw [names, h.frame]
  conv_rhs => rw [← Frame.map_toDeclaration (accepted trail.tried), List.map_map]
  rfl

theorem frames_eq (h : Follows className scope trail) :
    scope.frame :: scope.outer =
      trail.chain.map fun ds => .ofDeclarations (accepted ds) := by
  rw [h.frame, h.outer]
  rfl

theorem declared (h : Follows className scope trail) (d : Declaration) :
    Follows className (scope.move (.declare d)) (trail.move className (.declare d)) := by
  have hnames := h.names_eq
  by_cases hd : d.name ∈ (accepted trail.tried).map (·.name)
  · have hmove : scope.move (.declare d) = scope := by
      simp only [move, declare_of_mem (hnames ▸ hd)]
    rw [hmove]
    refine ⟨h.className, ?_, h.outer⟩
    rw [h.frame, Trail.move, accepted_concat, if_pos hd]
  · have hmove : scope.move (.declare d) = { scope with frame := scope.frame.add d } := by
      simp only [move, declare_of_not_mem (hnames ▸ hd)]
    rw [hmove]
    refine ⟨h.className, ?_, h.outer⟩
    rw [Trail.move, accepted_concat, if_neg hd, Frame.ofDeclarations_concat, ← h.frame]

theorem entered (h : Follows className scope trail) (method : Bool) :
    Follows className (scope.enter method) (trail.move className (.enter method)) := by
  refine ⟨h.className, ?_, h.frames_eq⟩
  rw [← h.className]
  cases method <;> rfl

theorem left (h : Follows className scope trail) :
    Follows className scope.leave (trail.move className .leave) := by
  obtain ⟨tried, outer⟩ := trail
  have houter := h.outer
  cases outer with
  | nil =>
    have hleave : scope.leave = scope := by
      unfold leave
      rw [houter]
      rfl
    rw [hleave]
    exact h
  | cons around outer =>
    have hleave : scope.leave = { scope with
        frame := .ofDeclarations (accepted around)
        outer := outer.map fun ds => .ofDeclarations (accepted ds) } := by
      unfold leave
      rw [houter]
      rfl
    rw [hleave]
    exact ⟨h.className, rfl, rfl⟩

theorem moved (h : Follows className scope trail) (m : Move) :
    Follows className (scope.move m) (trail.move className m) := by
  cases m with
  | declare d => exact h.declared d
  | enter method => exact h.entered method
  | leave => exact h.left

end Follows

theorem follows_run (className : String) (moves : List Move) :
    Follows className (run className moves) (Trail.run className moves) := by
  induction moves using List.reverseRecOn with
  | nil => exact ⟨rfl, rfl, rfl⟩
  | append_singleton moves m ih =>
    rw [run, Trail.run, List.foldl_concat, List.foldl_concat]
    exact ih.moved m

namespace Follows

variable {className : String} {scope : Scope} {trail : Trail}

theorem declare_eq_error_iff (h : Follows className scope trail) (d : Declaration)
    (e : CompileError) :
    scope.declare d = .error e ↔ d.name ∈ trail.tried.map (·.name) ∧ e = .duplicate d.name := by
  rw [← mem_names_accepted, ← h.names_eq]
  by_cases hd : d.name ∈ scope.names
  · simp [declare_of_mem hd, hd, eq_comm]
  · simp [declare_of_not_mem hd, hd]

theorem move_of_tried (h : Follows className scope trail) {d : Declaration}
    (hd : d.name ∈ trail.tried.map (·.name)) : scope.move (.declare d) = scope := by
  have hfails := (h.declare_eq_error_iff d (.duplicate d.name)).mpr ⟨hd, rfl⟩
  simp only [move, hfails]

theorem lookup_eq (h : Follows className scope trail) (name : String) :
    scope.lookup name = trail.chain.findSome? (found? name) := by
  rw [lookup, h.frames_eq, List.findSome?_map]
  congr 1
  funext ds
  rw [Function.comp_apply, find_ofDeclarations, find?_accepted]
  rfl

theorem resolve_eq_error_iff (h : Follows className scope trail) (name : String)
    (e : CompileError) :
    scope.resolve name = .error e ↔
      (∀ ds ∈ trail.chain, name ∉ ds.map (·.name)) ∧ e = .undefined name := by
  have hnone : scope.lookup name = none ↔ ∀ ds ∈ trail.chain, name ∉ ds.map (·.name) := by
    rw [h.lookup_eq, List.findSome?_eq_none_iff]
    simp [found?, List.find?_eq_none]
  rw [resolve, ← hnone]
  cases scope.lookup name with
  | none => simp [eq_comm]
  | some v => simp

theorem toNat_fieldCount (h : Follows className scope trail)
    (few : ∀ ds ∈ trail.chain, ds.length < 2 ^ 32) :
    scope.fieldCount.toNat = (accepted trail.outermost).countP (·.kind == .field) := by
  have houtermost : scope.outer.getLast?.getD scope.frame =
      .ofDeclarations (accepted trail.outermost) := by
    rw [h.outer, h.frame, List.getLast?_map, Trail.outermost]
    cases trail.outer.getLast? <;> rfl
  have hmem : trail.outermost ∈ trail.chain := by
    rw [Trail.outermost, Trail.chain]
    cases hlast : trail.outer.getLast? with
    | none => exact List.mem_cons_self
    | some ds => exact List.mem_cons_of_mem _ (List.mem_of_getLast? hlast)
  have hfew := Nat.lt_of_le_of_lt (length_accepted_le trail.outermost) (few _ hmem)
  rw [fieldCount, houtermost, toNat_count_ofDeclarations hfew]

end Follows

/-- Whatever was tried in a chain of scopes, its innermost scope holds the declarations that were
accepted, and those of each kind are numbered in their order from 0. A declaration fails exactly
if its name was tried in the scope before, and nothing that is done later can tell that it was
tried. A name has the variable of the innermost scope in which it was declared. The fields are
those of the outermost scope. -/
theorem chain_keeps_accepted (className : String) (moves : List Move)
    (few : moves.countP Move.declares < 2 ^ 32 - 1) :
    let scope := run className moves
    let trail := Trail.run className moves
    (scope.frame.map (·.toDeclaration) = accepted trail.tried ∧
      ∀ kind, (scope.frame.filter (·.kind == kind)).map (·.index.toNat) =
        List.range (scope.count kind).toNat) ∧
    (∀ d e, scope.declare d = .error e ↔
      d.name ∈ trail.tried.map (·.name) ∧ e = .duplicate d.name) ∧
    (∀ d later, d.name ∈ trail.tried.map (·.name) →
      run className (moves ++ .declare d :: later) = run className (moves ++ later)) ∧
    (∀ name, scope.lookup name = trail.chain.findSome? (found? name)) ∧
    (∀ name e, scope.resolve name = .error e ↔
      (∀ ds ∈ trail.chain, name ∉ ds.map (·.name)) ∧ e = .undefined name) ∧
    scope.fieldCount.toNat = (accepted trail.outermost).countP (·.kind == .field) := by
  intro scope trail
  have h : Follows className scope trail := follows_run className moves
  have hchain : ∀ ds ∈ trail.chain, ds.length < 2 ^ 32 := fun ds hds => by
    have hle := Trail.length_le_of_run className moves ds hds
    omega
  have hfew : (accepted trail.tried).length < 2 ^ 32 :=
    Nat.lt_of_le_of_lt (length_accepted_le _) (hchain _ List.mem_cons_self)
  refine ⟨⟨?_, fun kind => ?_⟩, h.declare_eq_error_iff, fun d later hd => ?_, h.lookup_eq,
    h.resolve_eq_error_iff, h.toNat_fieldCount hchain⟩
  · rw [h.frame, Frame.map_toDeclaration]
  · rw [h.frame, indices_ofDeclarations hfew, count, h.frame, toNat_count_ofDeclarations hfew]
  · rw [run, run, List.foldl_append, List.foldl_append, List.foldl_cons]
    exact congrArg (later.foldl move) (h.move_of_tried hd)

/-- A class with a name declared twice, and a method in it that hides a field and tries to declare
its receiver. -/
def shadowing : List Move :=
  [.declare ⟨"x", "int", .field⟩, .declare ⟨"n", "int", .static⟩, .declare ⟨"x", "char", .static⟩,
    .declare ⟨"y", "int", .field⟩, .enter true, .declare ⟨"x", "Point", .argument⟩,
    .declare ⟨"this", "int", .local⟩]

theorem chain_keeps_accepted_shadowing :
    shadowing.countP Move.declares < 2 ^ 32 - 1 ∧
    (run "Point" shadowing).declare ⟨"this", "int", .local⟩ = .error (.duplicate "this") ∧
    (run "Point" shadowing).lookup "this" = some ⟨⟨"this", "Point", .argument⟩, 0⟩ ∧
    (run "Point" shadowing).lookup "x" = some ⟨⟨"x", "Point", .argument⟩, 1⟩ ∧
    (run "Point" shadowing).lookup "y" = some ⟨⟨"y", "int", .field⟩, 1⟩ ∧
    (run "Point" shadowing).resolve "z" = .error (.undefined "z") ∧
    (run "Point" shadowing).fieldCount.toNat = 2 := by
  have few : shadowing.countP Move.declares < 2 ^ 32 - 1 := by decide
  obtain ⟨-, hdeclare, -, hlookup, hresolve, hfields⟩ := chain_keeps_accepted "Point" shadowing few
  refine ⟨few, (hdeclare _ _).mpr ⟨by decide, rfl⟩, ?_, ?_, ?_,
    (hresolve _ _).mpr ⟨by decide, rfl⟩, ?_⟩
  · rw [hlookup]
    decide
  · rw [hlookup]
    decide
  · rw [hlookup]
    decide
  · rw [hfields]
    decide

end Jack.Scope
