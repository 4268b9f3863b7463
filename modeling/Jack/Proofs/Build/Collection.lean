import Jack.Proofs.Build.Sources

/-! Which files a build finds. In a directory they are the regular files whose names are a stem that
is not empty and the extension of sources, in the strict order of their names, whatever the order
in which the directory is listed. A path that leads to such a file is found alone, and nothing is
found elsewhere. -/

namespace Jack

open Disk

theorem Path.hasSourceExtension_iff {p : Path} : p.hasSourceExtension ↔
    ∃ stem, stem ≠ "" ∧ p.fileName = some (stem ++ ".jack").toList := by
  rw [hasSourceExtension, beq_iff_eq, extension, Option.map_eq_some_iff]
  constructor
  · rintro ⟨⟨stem, extension⟩, hcut, hextension⟩
    obtain ⟨name, hname, hcut⟩ := Option.bind_eq_some_iff.mp hcut
    obtain ⟨rfl, hstem, -⟩ := cutName_eq_some_iff.mp hcut
    obtain rfl : extension = "jack".toList := by
      rw [← String.toList_ofList (l := extension)]
      exact congrArg String.toList hextension
    refine ⟨String.ofList stem, fun hempty => hstem ?_, ?_⟩
    · simpa using congrArg String.toList hempty
    · rw [hname, String.toList_append, String.toList_ofList (l := stem)]
      rfl
  · rintro ⟨stem, hstem, hname⟩
    refine ⟨(stem.toList, "jack".toList), ?_, rfl⟩
    rw [hname, Option.bind_some, String.toList_append]
    refine cutName_eq_some_iff.mpr ⟨rfl, ?_, by decide⟩
    exact mt String.toList_eq_nil_iff.mp hstem

namespace Disk

/-- At the place is a regular file, and its name is a stem that is not empty and the extension of
sources. -/
structure SourceAt (d : Disk) (l : Location) : Prop where
  file : ∃ content, d.get? l = some (.file content)
  named : ∃ stem, stem ≠ "" ∧ l.getLast? = some (stem ++ ".jack")

variable {d d' : Disk} {input : Path} {l : Location} {name : String}

theorem hasSource_join_iff {dir : Path} (hname : Path.IsEntryName name)
    (hdir : d.enter dir = .ok l) : d.hasSource (dir.join name) ↔ d.SourceAt (l ++ [name]) := by
  have hp : d.resolve (dir.join name) = .ok (l ++ [name]) := by
    rw [resolve_join d dir hname, hdir]
    rfl
  have hnamed : (dir.join name).hasSourceExtension ↔
      ∃ stem, stem ≠ "" ∧ (l ++ [name]).getLast? = some (stem ++ ".jack") := by
    rw [Path.hasSourceExtension_iff, Path.fileName_join hname, List.getLast?_concat]
    simp only [Option.some.injEq, String.toList_inj]
  rw [hasSource_eq_true_iff, status_eq_file_iff hp, hnamed]
  exact ⟨fun h => ⟨h.1, h.2⟩, fun h => ⟨h.file, h.named⟩⟩

/-- A path is taken for a source exactly if it leads to one. -/
theorem hasSource_iff (h : d.Sound) (hp : d.resolve input = .ok l) :
    d.hasSource input ↔ d.SourceAt l := by
  have hjoin {content : ByteArray} (hl : d.get? l = some (.file content)) :
      d.hasSource input ↔ d.SourceAt l := by
    obtain ⟨dir, name, hname, rfl⟩ := h.exists_join_of_file hp hl
    rw [resolve_join d dir hname] at hp
    cases hdir : d.enter dir with
    | error fault =>
      rw [hdir] at hp
      cases hp
    | ok place =>
      rw [hdir] at hp
      obtain rfl : place ++ [name] = l := Except.ok.inj hp
      exact hasSource_join_iff hname hdir
  constructor
  · intro hsource
    obtain ⟨hstatus, -⟩ := hasSource_eq_true_iff.mp hsource
    obtain ⟨content, hcontent⟩ := (status_eq_file_iff hp).mp hstatus
    exact (hjoin hcontent).mp hsource
  · intro hsource
    obtain ⟨content, hcontent⟩ := hsource.file
    exact (hjoin hcontent).mpr hsource

/-! The sources of a directory. -/

/-- The names of the sources in the directory to which a path leads, in their order. -/
def sourceNames (d : Disk) (dir : Path) (l : Location) : List String :=
  ((d.children l).mergeSort fun a b => decide (a ≤ b)).filter fun name => d.hasSource (dir.join name)

theorem mem_sourceNames_iff (h : d.Sound) (hdir : d.enter input = .ok l) :
    name ∈ d.sourceNames input l ↔ d.SourceAt (l ++ [name]) := by
  rw [sourceNames, List.mem_filter, List.mem_mergeSort]
  constructor
  · rintro ⟨hchild, hsource⟩
    exact (hasSource_join_iff (isEntryName_of_mem_children h.named hchild) hdir).mp hsource
  · intro hsource
    obtain ⟨content, hcontent⟩ := hsource.file
    have hchild := (mem_children_iff h.distinct).mpr ⟨_, hcontent⟩
    have hname := isEntryName_of_mem_children h.named hchild
    exact ⟨hchild, (hasSource_join_iff hname hdir).mpr hsource⟩

/-- No name is there twice, so the order is strict. -/
theorem pairwise_sourceNames (h : d.Sound) (input : Path) (l : Location) :
    (d.sourceNames input l).Pairwise (· < ·) := by
  have hnodup : ((d.children l).mergeSort fun a b => decide (a ≤ b)).Nodup :=
    (List.mergeSort_perm _ _).nodup_iff.mpr (nodup_children h.distinct l)
  have hsorted := (pairwise_mergeSort_le (d.children l)).and hnodup
  refine (hsorted.imp fun {a b} hab => ?_).filter _
  by_contra hlt
  exact hab.2 (String.le_antisymm hab.1 (String.not_lt.mp hlt))

theorem nodup_sources (h : d.Sound) (input : Path) (l : Location) :
    ((d.sourceNames input l).map input.join).Nodup := by
  have hslash {name : String} (hname : name ∈ d.sourceNames input l) : '/' ∉ name.toList := by
    have hchild := List.mem_mergeSort.mp (List.mem_filter.mp hname).1
    exact (isEntryName_of_mem_children h.named hchild).no_slash
  rw [List.Nodup, List.pairwise_map]
  refine (pairwise_sourceNames h input l).imp_of_mem fun {a b} ha hb hlt heq => ?_
  rw [Path.join_inj (hslash ha) (hslash hb)] at heq
  exact String.lt_irrefl b (heq ▸ hlt)

theorem Reorders.hasSource (h : d'.Reorders d) (hsound : d.Sound) (p : Path) :
    d'.hasSource p = d.hasSource p := by
  rw [Disk.hasSource, Disk.hasSource, (h.agreeOn hsound.distinct).status_of_univ]

theorem Reorders.sourceNames (h : d'.Reorders d) (hsound : d.Sound) (input : Path)
    (l : Location) : d'.sourceNames input l = d.sourceNames input l := by
  have hperm := (List.mergeSort_perm (d'.children l) fun a b => decide (a ≤ b)).trans
    ((h.children l).trans (List.mergeSort_perm (d.children l) fun a b => decide (a ≤ b)).symm)
  have hsorted := hperm.eq_of_pairwise (fun a b _ _ => String.le_antisymm)
    (pairwise_mergeSort_le _) (pairwise_mergeSort_le _)
  rw [Disk.sourceNames, Disk.sourceNames, hsorted]
  exact List.filter_congr fun name _ => h.hasSource hsound _

end Disk

/-! What is collected. -/

variable {d d' : Disk} {input : Path} {l : Location}

theorem run_collectSources_directory (hp : d.resolve input = .ok l)
    (hl : d.get? l = some .directory) : (collectSources input).run d =
      (.ok ((d.sourceNames input l).map input.join), d) := by
  have hstatus : d.status input = .directory := by rw [status_eq hp, hl]
  have hlist : d.list input = .ok (d.children l) := by rw [list_eq hp, hl]
  rw [run_collectSources, if_pos hstatus, hlist, sourceNames]
  dsimp only
  rw [List.filter_map]
  rfl

theorem run_collectSources_source (h : d.Sound) (hp : d.resolve input = .ok l)
    (hl : d.SourceAt l) : (collectSources input).run d = (.ok [input], d) := by
  obtain ⟨content, hcontent⟩ := hl.file
  have hstatus : d.status input ≠ .directory := by
    rw [status_eq hp, hcontent]
    exact nofun
  rw [run_collectSources, if_neg hstatus, if_pos ((hasSource_iff h hp).mpr hl)]

theorem run_collectSources_other (h : d.Sound) (hother : ∀ l, d.resolve input = .ok l →
    d.get? l ≠ some .directory ∧ ¬d.SourceAt l) :
    (collectSources input).run d = (.error (.notSource input), d) := by
  have hstatus : d.status input ≠ .directory := by
    intro hdir
    obtain ⟨l, hp, hl⟩ := exists_of_status_directory hdir
    exact (hother l hp).1 hl
  have hsource : ¬d.hasSource input := by
    intro hsource
    obtain ⟨hfile, -⟩ := hasSource_eq_true_iff.mp hsource
    obtain ⟨l, content, hp, -⟩ := exists_of_status_file hfile
    exact (hother l hp).2 ((hasSource_iff h hp).mp hsource)
  rw [run_collectSources, if_neg hstatus, if_neg hsource]

end Jack
