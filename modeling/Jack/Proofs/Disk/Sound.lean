import Jack.Proofs.Disk.Script

/-! Disks that are trees. Every place is there once and in a directory, so a path that leads to a
file ends with the name of the file, and the directory has the name among its entries. The order of
the entries decides nothing but the order in which a directory is listed. -/

namespace Jack.Disk

/-- All names on the disk are names that entries can have. -/
def WellNamed (d : Disk) : Prop := ∀ e ∈ d.entries, ∀ name ∈ e.1, Path.IsEntryName name

instance (d : Disk) : Decidable d.WellNamed :=
  inferInstanceAs (Decidable (∀ e ∈ d.entries, ∀ name ∈ e.1, Path.IsEntryName name))

/-- The disk is a tree of directories, and the working directory is one of them. -/
structure Sound (d : Disk) : Prop where
  named : d.WellNamed
  distinct : (d.entries.map (·.1)).Nodup
  inside : ∀ e ∈ d.entries, d.get? e.1.dropLast = some .directory
  here : d.get? d.here = some .directory

/-- The same disk with its entries in another order. -/
structure Reorders (d' d : Disk) : Prop where
  here : d'.here = d.here
  entries : d'.entries.Perm d.entries

variable {d d' : Disk} {l : Location} {name : String}

/-- What a place adds to the list of a directory. -/
theorem child_eq_some_iff {place : Location} :
    (if place.dropLast = l then place.getLast? else none) = some name ↔ place = l ++ [name] := by
  rw [Option.ite_none_right_eq_some, List.getLast?_eq_some_iff]
  constructor
  · rintro ⟨rfl, front, rfl⟩
    rw [List.dropLast_concat]
  · rintro rfl
    exact ⟨List.dropLast_concat, l, rfl⟩

theorem isEntryName_of_mem_children (h : d.WellNamed) (hname : name ∈ d.children l) :
    Path.IsEntryName name := by
  obtain ⟨e, he, hchild⟩ := List.mem_filterMap.mp hname
  refine h e he name ?_
  rw [child_eq_some_iff.mp hchild]
  exact List.mem_concat_self

/-! What is at a place. -/

theorem get?_eq_some_iff (h : (d.entries.map (·.1)).Nodup) (hl : l ≠ []) {e : Entry} :
    d.get? l = some e ↔ (l, e) ∈ d.entries := by
  rw [get?, if_neg hl, List.lookup_eq_some_iff]
  constructor
  · rintro ⟨front, back, hentries, -⟩
    rw [hentries]
    exact List.mem_append_right _ List.mem_cons_self
  · intro hmem
    obtain ⟨front, back, hentries⟩ := List.append_of_mem hmem
    refine ⟨front, back, hentries, fun other hother => ?_⟩
    rw [hentries, List.map_append, List.nodup_append] at h
    have hne : other.1 ≠ l :=
      h.2.2 _ (List.mem_map_of_mem hother) _ (List.mem_map_of_mem List.mem_cons_self)
    exact bne_iff_ne.mpr hne.symm

theorem mem_children_iff (h : (d.entries.map (·.1)).Nodup) :
    name ∈ d.children l ↔ ∃ e, d.get? (l ++ [name]) = some e := by
  constructor
  · intro hname
    obtain ⟨⟨place, e⟩, he, hchild⟩ := List.mem_filterMap.mp hname
    obtain rfl := child_eq_some_iff.mp hchild
    exact ⟨e, (get?_eq_some_iff h (by simp)).mpr he⟩
  · rintro ⟨e, he⟩
    have hmem := (get?_eq_some_iff h (by simp)).mp he
    exact List.mem_filterMap.mpr ⟨_, hmem, child_eq_some_iff.mpr rfl⟩

theorem nodup_children (h : (d.entries.map (·.1)).Nodup) (l : Location) :
    (d.children l).Nodup := by
  rw [List.Nodup, List.pairwise_map] at h
  rw [children, List.Nodup, List.pairwise_filterMap]
  refine h.imp fun hne name hname name' hname' hsame => hne ?_
  rw [child_eq_some_iff.mp hname, child_eq_some_iff.mp hname', hsame]

/-! Where paths lead. -/

namespace Sound

variable (h : d.Sound)

include h

theorem directory_dropLast (hl : d.get? l = some .directory) :
    d.get? l.dropLast = some .directory := by
  by_cases hroot : l = []
  · rw [hroot]
    rfl
  · exact h.inside _ ((get?_eq_some_iff h.distinct hroot).mp hl)

/-- From a directory, one comes to directories only. -/
theorem directory_of_walk {start : Location} {pieces : List String}
    (hstart : d.get? start = some .directory) (hwalk : d.walk start pieces = .ok l) :
    d.get? l = some .directory := by
  induction pieces generalizing start with
  | nil =>
    obtain rfl := Except.ok.inj hwalk
    exact hstart
  | cons piece rest ih =>
    rw [walk] at hwalk
    split at hwalk
    · exact ih hstart hwalk
    split at hwalk
    · exact ih (h.directory_dropLast hstart) hwalk
    split at hwalk
    · next hdir => exact ih hdir hwalk
    · cases hwalk
    · cases hwalk

/-- The path of a file is a name, seen from the directory that holds it. -/
theorem exists_join_of_file {p : Path} (hp : d.resolve p = .ok l) {content : ByteArray}
    (hl : d.get? l = some (.file content)) :
    ∃ (dir : Path) (name : String), Path.IsEntryName name ∧ p = dir.join name := by
  obtain ⟨dir, name, hslash, rfl⟩ := p.exists_join
  refine ⟨dir, name, ?_, rfl⟩
  obtain ⟨-, place, hwalk, rfl⟩ := resolve_eq_ok_iff.mp hp
  obtain ⟨front, -, hpieces, -, -⟩ := dir.pieces_join hslash
  rw [hpieces, List.getLast?_concat, Option.getD_some] at hl
  have hstart : d.get? (if (dir.join name).isAbsolute then [] else d.here) = some .directory := by
    split
    · rfl
    · exact h.here
  have hplace := h.directory_of_walk hstart hwalk
  -- any other last piece leads to a directory
  have hother (hdir : d.get? (step place name) = some .directory) : False :=
    nomatch hl.symm.trans hdir
  have hblank : ¬(name = "" ∨ name = ".") := fun hname => hother (by rwa [step, if_pos hname])
  have hup : name ≠ ".." := fun hname =>
    hother (by rw [step, if_neg hblank, if_pos hname]; exact h.directory_dropLast hplace)
  obtain ⟨hempty, hdot⟩ := not_or.mp hblank
  exact ⟨hempty, hdot, hup, hslash⟩

end Sound

/-! Other orders of the entries. -/

namespace Reorders

variable (h : d'.Reorders d)

include h

theorem distinct (hdistinct : (d.entries.map (·.1)).Nodup) : (d'.entries.map (·.1)).Nodup :=
  (h.entries.map _).nodup_iff.mpr hdistinct

theorem get? (hdistinct : (d.entries.map (·.1)).Nodup) (l : Location) :
    d'.get? l = d.get? l := by
  by_cases hroot : l = []
  · rw [hroot]
    rfl
  · refine Option.ext fun e => ?_
    rw [get?_eq_some_iff (h.distinct hdistinct) hroot, get?_eq_some_iff hdistinct hroot]
    exact h.entries.mem_iff

theorem agreeOn (hdistinct : (d.entries.map (·.1)).Nodup) : d'.AgreeOn Set.univ d where
  here := h.here
  directory l := by rw [h.get? hdistinct]
  entry l _ := h.get? hdistinct l

theorem children (l : Location) : (d'.children l).Perm (d.children l) := h.entries.filterMap _

end Reorders

theorem exists_perm_filterMap {α β : Type} {f : α → Option β} {xs : List α} {ys : List β}
    (h : ys.Perm (xs.filterMap f)) : ∃ xs' : List α, xs'.Perm xs ∧ xs'.filterMap f = ys := by
  induction ys generalizing xs with
  | nil => exact ⟨xs, .refl xs, List.nil_perm.mp h⟩
  | cons y ys ih =>
    obtain ⟨x, hx, hy⟩ := List.mem_filterMap.mp (h.mem_iff.mp List.mem_cons_self)
    obtain ⟨front, back, rfl⟩ := List.append_of_mem hx
    have hxs : (x :: (front ++ back)).Perm (front ++ x :: back) := List.perm_middle.symm
    have hrest : ys.Perm ((front ++ back).filterMap f) := by
      have hmoved := h.trans (hxs.filterMap f).symm
      rw [List.filterMap_cons_some hy] at hmoved
      exact hmoved.cons_inv
    obtain ⟨others, hothers, rfl⟩ := ih hrest
    exact ⟨x :: others, (hothers.cons x).trans hxs, List.filterMap_cons_some hy⟩

/-- A directory can be listed in every order. -/
theorem exists_reorders_children {names : List String} (h : names.Perm (d.children l)) :
    ∃ d' : Disk, d'.Reorders d ∧ d'.children l = names := by
  obtain ⟨entries, hentries, hnames⟩ := exists_perm_filterMap h
  exact ⟨⟨entries, d.here⟩, ⟨rfl, hentries⟩, hnames⟩

end Jack.Disk
