import Jack.Build.Artifacts
import Jack.Proofs.Disk.Script

/-! Artifacts put on disk, step by step. A step that succeeds fills one place and empties at most
one other, and one that fails changes nothing. So if the paths lead to places of their own, either
every artifact comes to its place or there is a directory in the way; and what is removed after a
failure is all that the steps before it filled. -/

namespace Jack

open Disk

/-- Every place is as before, or nothing is there any more. -/
def Disk.LosesTo (d d' : Disk) : Prop := ∀ l, d'.get? l = d.get? l ∨ d'.get? l = none

namespace Disk

variable {d d' d'' : Disk}

theorem LosesTo.refl (d : Disk) : d.LosesTo d := fun _ => .inl rfl

theorem LosesTo.trans (h : d.LosesTo d') (h' : d'.LosesTo d'') : d.LosesTo d'' := by
  intro l
  rcases h' l with hsame | hnone
  · rw [hsame]
    exact h l
  · exact .inr hnone

/-- A file is removed, or nothing happens and no file was there. -/
theorem change_remove (d : Disk) (p : Path) :
    (∃ l content, d.resolve p = .ok l ∧ d.get? l = some (.file content) ∧
      (d.change (d.remove p)).2 = d.erase l) ∨
    ((d.change (d.remove p)).2 = d ∧
      ∀ l, d.resolve p = .ok l → ∀ content, d.get? l ≠ some (.file content)) := by
  cases hp : d.resolve p with
  | error fault =>
    refine .inr ⟨?_, fun l hl => nomatch hl⟩
    rw [remove, hp]
    rfl
  | ok l =>
    rw [remove_eq hp]
    cases hl : d.get? l with
    | none => exact .inr ⟨rfl, by simp [hl]⟩
    | some e =>
      cases e with
      | file content => exact .inl ⟨l, content, rfl, hl, rfl⟩
      | directory => exact .inr ⟨rfl, by simp [hl]⟩

theorem agreeOn_remove (d : Disk) (p : Path) : d.AgreeOn ∅ (d.change (d.remove p)).2 := by
  rcases d.change_remove p with ⟨l, content, -, hl, heq⟩ | ⟨heq, -⟩ <;> rw [heq]
  · exact (agreeOn_erase (by simp [hl])).mono (Set.empty_subset _)
  · exact .refl _ d

theorem losesTo_remove (d : Disk) (p : Path) : d.LosesTo (d.change (d.remove p)).2 := by
  rcases d.change_remove p with ⟨l, content, -, hl, heq⟩ | ⟨heq, -⟩ <;> rw [heq]
  · intro l'
    rw [get?_erase_of_ne (by simp [hl])]
    split
    · exact .inr rfl
    · exact .inl rfl
  · exact .refl d

theorem not_file_remove {p : Path} {l : Location} (hp : d.resolve p = .ok l)
    (content : ByteArray) : (d.change (d.remove p)).2.get? l ≠ some (.file content) := by
  rcases d.change_remove p with ⟨l', content', hp', hl', heq⟩ | ⟨heq, hnone⟩ <;> rw [heq]
  · obtain rfl : l' = l := Except.ok.inj (hp'.symm.trans hp)
    rw [get?_erase_of_ne (by simp [hl']), if_pos rfl]
    exact nofun
  · exact hnone l hp content

end Disk

namespace Installation

variable {base d d' : Disk} {made : List Artifact} {filled : List Path}

/-- What a step does to a disk. -/
def effect (d : Disk) : Installation → Except Fault Disk
  | stage a => d.write (stagingPath a.place) a.content
  | place a => d.rename (stagingPath a.place) a.place

theorem run_attempt (step : Installation) (d : Disk) :
    step.attempt.run d = d.change (step.effect d) := by
  cases step <;> rfl

theorem run_runSteps_cons (filled : List Path) (step : Installation) (others : List Installation)
    (d : Disk) : (runSteps filled (step :: others)).run d =
      match step.effect d with
      | .ok d' => (runSteps (filled ++ [step.target]) others).run d'
      | .error fault => (.error (.writing step.target fault), ((removeAll filled).run d).2) := by
  rw [runSteps, Script.run_bind, run_attempt]
  cases step.effect d with
  | ok d' => rfl
  | error fault => exact Script.run_bind _ _ d

/-! Nothing that is filled on the way outlasts a failure. -/

theorem run_removeAll_cons (p : Path) (others : List Path) (d : Disk) :
    ((removeAll (p :: others)).run d).2 =
      ((removeAll others).run (d.change (d.remove p)).2).2 := rfl

theorem losesTo_removeAll (paths : List Path) (d : Disk) :
    d.LosesTo ((removeAll paths).run d).2 := by
  induction paths generalizing d with
  | nil => exact .refl d
  | cons p others ih =>
    rw [run_removeAll_cons]
    exact (d.losesTo_remove p).trans (ih _)

theorem not_file_removeAll {paths : List Path} {p : Path} {l : Location} (hmem : p ∈ paths)
    (hp : d.resolve p = .ok l) (content : ByteArray) :
    ((removeAll paths).run d).2.get? l ≠ some (.file content) := by
  induction paths generalizing d with
  | nil => cases hmem
  | cons q others ih =>
    rw [run_removeAll_cons]
    rcases List.mem_cons.mp hmem with rfl | hlater
    · rcases losesTo_removeAll others (d.change (d.remove p)).2 l with hsame | hnone
      · rw [hsame]
        exact not_file_remove hp content
      · simp [hnone]
    · exact ih hlater ((d.agreeOn_remove q).resolve.mp hp)

theorem effect_frame {step : Installation} (h : step.effect d = .ok d') :
    d.AgreeOn ∅ d' ∧
      ∀ l, d'.get? l = d.get? l ∨ d'.get? l = none ∨ d.resolve step.target = .ok l := by
  cases step with
  | stage a =>
    obtain ⟨goal, hgoal, hne, rfl⟩ := exists_of_write h
    refine ⟨(agreeOn_put hne _).mono (Set.empty_subset _), fun l => ?_⟩
    rw [get?_put_of_ne hne]
    split
    · next hsame => exact .inr (.inr (hsame ▸ hgoal))
    · exact .inl rfl
  | place a =>
    cases horigin : d.resolve (stagingPath a.place) with
    | error fault =>
      rw [effect, rename, horigin] at h
      cases h
    | ok origin =>
      cases hgoal : d.resolve a.place with
      | error fault =>
        rw [effect, rename, horigin, hgoal] at h
        cases h
      | ok goal =>
        obtain ⟨content, hfile, hne, rfl⟩ := exists_of_rename horigin hgoal h
        have horigin' : d.get? origin ≠ some .directory := by simp [hfile]
        refine ⟨(agreeOn_put_erase horigin' hne _).mono (Set.empty_subset _), fun l => ?_⟩
        rw [get?_put_erase horigin' hne]
        split
        · next hsame => exact .inr (.inr (hsame ▸ hgoal))
        split
        · exact .inr (.inl rfl)
        · exact .inl rfl

/-- The invariant: away from the places filled so far, the disk has lost at most. -/
theorem losesTo_of_error {steps : List Installation} {e : BuildError} (hbase : base.AgreeOn ∅ d)
    (h : ∀ l, d.get? l = base.get? l ∨ d.get? l = none ∨ ∃ p ∈ filled, base.resolve p = .ok l)
    (hrun : (runSteps filled steps).run d = (.error e, d')) : base.LosesTo d' := by
  induction steps generalizing filled d with
  | nil => cases hrun
  | cons step others ih =>
    rw [run_runSteps_cons] at hrun
    cases heffect : step.effect d with
    | ok next =>
      rw [heffect] at hrun
      obtain ⟨hagree, hframe⟩ := effect_frame heffect
      refine ih (hbase.trans hagree) (fun l => ?_) hrun
      rcases hframe l with hsame | hnone | htarget
      · rw [hsame]
        rcases h l with hold | hnone | ⟨p, hp, hl⟩
        · exact .inl hold
        · exact .inr (.inl hnone)
        · exact .inr (.inr ⟨p, List.mem_append_left _ hp, hl⟩)
      · exact .inr (.inl hnone)
      · exact .inr (.inr ⟨_, by simp, hbase.resolve.mpr htarget⟩)
    | error fault =>
      rw [heffect] at hrun
      obtain ⟨-, rfl⟩ := Prod.mk.inj hrun
      intro l
      rcases losesTo_removeAll filled d l with hkept | hnone
      · rw [hkept]
        rcases h l with hold | hnone | ⟨p, hp, hl⟩
        · exact .inl hold
        · exact .inr hnone
        · -- what is left at a place that was filled is no file
          cases hentry : d.get? l with
          | none => exact .inr rfl
          | some e =>
            cases e with
            | directory => exact .inl ((hbase.directory l).mpr hentry).symm
            | file content =>
              exact absurd (hkept.trans hentry)
                (not_file_removeAll hp (hbase.resolve.mp hl) content)
      · exact .inr hnone

/-! Where every path leads to a place of its own, only directories are in the way. -/

/-- The paths of the artifacts, and those at which they are staged, lead to places that are all
different. -/
structure HavePlaces (base : Disk) (spot : Path → Location) (made : List Artifact) : Prop where
  place : ∀ a ∈ made, base.resolve a.place = .ok (spot a.place)
  staging : ∀ a ∈ made, base.resolve (stagingPath a.place) = .ok (spot (stagingPath a.place))
  apart : made.Pairwise fun a b => spot a.place ≠ spot b.place ∧
    spot (stagingPath a.place) ≠ spot (stagingPath b.place)
  unmixed : ∀ a ∈ made, ∀ b ∈ made, spot a.place ≠ spot (stagingPath b.place)

variable {spot : Path → Location}

theorem HavePlaces.tail {a : Artifact} (h : HavePlaces base spot (a :: made)) :
    HavePlaces base spot made where
  place b hb := h.place b (List.mem_cons_of_mem _ hb)
  staging b hb := h.staging b (List.mem_cons_of_mem _ hb)
  apart := (List.pairwise_cons.mp h.apart).2
  unmixed b hb c hc := h.unmixed b (List.mem_cons_of_mem _ hb) c (List.mem_cons_of_mem _ hc)

/-- Staging comes upon a directory, or everything is staged and the steps go on from there. -/
theorem run_staging (h : HavePlaces base spot made) (hbase : base.AgreeOn ∅ d)
    (filled : List Path) (others : List Installation) :
    (∃ a ∈ made, base.get? (spot (stagingPath a.place)) = some .directory ∧
      ((runSteps filled (made.map .stage ++ others)).run d).1 =
        .error (.writing (stagingPath a.place) .isDirectory)) ∨
    ∃ d' filled', (runSteps filled (made.map .stage ++ others)).run d =
        (runSteps filled' others).run d' ∧
      base.AgreeOn ∅ d' ∧
      (∀ a ∈ made, d'.get? (spot (stagingPath a.place)) = some (.file a.content)) ∧
      ∀ l, (∀ a ∈ made, l ≠ spot (stagingPath a.place)) → d'.get? l = d.get? l := by
  induction made generalizing filled d with
  | nil => exact .inr ⟨d, filled, rfl, hbase, by simp, fun _ _ => rfl⟩
  | cons a made ih =>
    have hplace := hbase.resolve.mp (h.staging a List.mem_cons_self)
    have hwrite := write_eq hplace a.content
    rw [List.map_cons, List.cons_append, run_runSteps_cons, effect, hwrite]
    by_cases hdir : d.get? (spot (stagingPath a.place)) = some .directory
    · rw [hdir]
      exact .inl ⟨a, List.mem_cons_self, (hbase.directory _).mpr hdir, rfl⟩
    rw [← hwrite, write_of_ne hplace hdir]
    have hafter := hbase.trans ((agreeOn_put hdir a.content).mono (Set.empty_subset _))
    rcases ih h.tail hafter (filled ++ [stagingPath a.place]) with
      ⟨b, hb, hblocked, herror⟩ | ⟨d', filled', hrun, hagree, hstaged, hframe⟩
    · exact .inl ⟨b, List.mem_cons_of_mem _ hb, hblocked, herror⟩
    · refine .inr ⟨d', filled', hrun, hagree, fun b hb => ?_, fun l hl => ?_⟩
      · rcases List.mem_cons.mp hb with rfl | hb
        · -- what is staged later goes elsewhere
          rw [hframe _ fun c hc => ((List.pairwise_cons.mp h.apart).1 c hc).2,
            get?_put_of_ne hdir, if_pos rfl]
        · exact hstaged b hb
      · rw [List.forall_mem_cons] at hl
        rw [hframe l hl.2, get?_put_of_ne hdir, if_neg hl.1]

/-- Once everything is staged, moving comes upon a directory, or every artifact is in its place
and nothing is staged any more. -/
theorem run_placing (h : HavePlaces base spot made) (hbase : base.AgreeOn ∅ d)
    (hstaged : ∀ a ∈ made, d.get? (spot (stagingPath a.place)) = some (.file a.content))
    (filled : List Path) :
    (∃ a ∈ made, base.get? (spot a.place) = some .directory ∧
      ((runSteps filled (made.map .place)).run d).1 =
        .error (.writing a.place .isDirectory)) ∨
    ∃ d', (runSteps filled (made.map .place)).run d = (.ok (), d') ∧
      (∀ a ∈ made, d'.get? (spot a.place) = some (.file a.content) ∧
        d'.get? (spot (stagingPath a.place)) = none) ∧
      ∀ l, (∀ a ∈ made, l ≠ spot a.place ∧ l ≠ spot (stagingPath a.place)) →
        d'.get? l = d.get? l := by
  induction made generalizing filled d with
  | nil => exact .inr ⟨d, rfl, by simp, fun _ _ => rfl⟩
  | cons a made ih =>
    have horigin := hbase.resolve.mp (h.staging a List.mem_cons_self)
    have hgoal := hbase.resolve.mp (h.place a List.mem_cons_self)
    have hfile := hstaged a List.mem_cons_self
    rw [List.map_cons, run_runSteps_cons, effect]
    by_cases hdir : d.get? (spot a.place) = some .directory
    · rw [rename_eq horigin hgoal, hfile, hdir]
      exact .inl ⟨a, List.mem_cons_self, (hbase.directory _).mpr hdir, rfl⟩
    rw [rename_of_file horigin hgoal hfile hdir]
    have hne : d.get? (spot (stagingPath a.place)) ≠ some .directory := by simp [hfile]
    have hafter := hbase.trans ((agreeOn_put_erase hne hdir a.content).mono (Set.empty_subset _))
    have hget := get?_put_erase hne hdir (.file a.content)
    obtain ⟨hfirst, -⟩ := List.pairwise_cons.mp h.apart
    have hstill : ∀ b ∈ made, ((d.erase (spot (stagingPath a.place))).put (spot a.place)
        (.file a.content)).get? (spot (stagingPath b.place)) = some (.file b.content) := by
      intro b hb
      have hmem := List.mem_cons_of_mem a hb
      rw [hget, if_neg (h.unmixed a List.mem_cons_self b hmem).symm, if_neg (hfirst b hb).2.symm]
      exact hstaged b hmem
    rcases ih h.tail hafter hstill (filled ++ [a.place]) with
      ⟨b, hb, hblocked, herror⟩ | ⟨d', hrun, hplaced, hframe⟩
    · exact .inl ⟨b, List.mem_cons_of_mem _ hb, hblocked, herror⟩
    · refine .inr ⟨d', hrun, fun b hb => ?_, fun l hl => ?_⟩
      · rcases List.mem_cons.mp hb with rfl | hb
        · have hmixed := h.unmixed b List.mem_cons_self
          constructor
          · rw [hframe _ fun c hc => ⟨(hfirst c hc).1, hmixed c (List.mem_cons_of_mem _ hc)⟩,
              hget, if_pos rfl]
          · rw [hframe _ fun c hc => ⟨(h.unmixed c (List.mem_cons_of_mem _ hc) b
              List.mem_cons_self).symm, (hfirst c hc).2⟩, hget,
              if_neg (hmixed b List.mem_cons_self).symm, if_pos rfl]
        · exact hplaced b hb
      · rw [List.forall_mem_cons] at hl
        rw [hframe l hl.2, hget, if_neg hl.1.1, if_neg hl.1.2]

end Installation

open Installation

variable {d d' : Disk} {made : List Artifact} {spot : Path → Location}

theorem losesTo_of_install_error {e : BuildError} (h : (install made).run d = (.error e, d')) :
    d.LosesTo d' :=
  losesTo_of_error (.refl _ d) (fun _ => .inl rfl) h

/-- All artifacts are put on disk, or the first path at which a directory is in the way is
reported. -/
theorem run_install (h : HavePlaces d spot made) :
    (∃ p ∈ made.map (·.place) ++ made.map fun a => stagingPath a.place,
      d.get? (spot p) = some .directory ∧
        ((install made).run d).1 = .error (.writing p .isDirectory)) ∨
    ∃ d', (install made).run d = (.ok (), d') ∧
      ∀ a ∈ made, d'.get? (spot a.place) = some (.file a.content) ∧
        d'.get? (spot (stagingPath a.place)) = none := by
  rcases run_staging h (.refl _ d) [] (made.map .place) with
    ⟨a, ha, hdir, herror⟩ | ⟨staged, filled, hrun, hagree, hstaged, -⟩
  · exact .inl ⟨_, List.mem_append_right _ (List.mem_map.mpr ⟨a, ha, rfl⟩), hdir, herror⟩
  rw [install, hrun]
  rcases run_placing h hagree hstaged filled with ⟨a, ha, hdir, herror⟩ | ⟨d', hplaced, hget, -⟩
  · exact .inl ⟨_, List.mem_append_left _ (List.mem_map.mpr ⟨a, ha, rfl⟩), hdir, herror⟩
  · exact .inr ⟨d', hplaced, hget⟩

/-! Installing keeps to the places of the artifacts. -/

namespace Installation

variable {base : Disk} {changes : Set Location}

/-- The paths that a step works on. -/
def paths : Installation → List Path
  | stage a => [stagingPath a.place]
  | place a => [stagingPath a.place, a.place]

variable (base changes) in
/-- All the paths lead to one of the places. -/
def LeadInto (paths : List Path) : Prop := ∀ p ∈ paths, ∃ l ∈ changes, base.resolve p = .ok l

theorem within_removeAll {paths : List Path} (h : LeadInto base changes paths) :
    (removeAll paths).Within base changes changes := by
  induction paths with
  | nil => trivial
  | cons p others ih =>
    obtain ⟨hp, hothers⟩ := List.forall_mem_cons.mp h
    exact ⟨hp, fun _ => ih hothers⟩

theorem within_attempt {step : Installation} (h : LeadInto base changes step.paths) :
    step.attempt.Within base changes changes := by
  cases step with
  | stage a => exact .request (h _ List.mem_cons_self)
  | place a => exact .request ⟨h _ List.mem_cons_self, h _ (by simp [paths])⟩

theorem target_mem_paths (step : Installation) : step.target ∈ step.paths := by
  cases step <;> simp [target, paths]

theorem within_runSteps {filled : List Path} {steps : List Installation}
    (hfilled : LeadInto base changes filled)
    (hsteps : ∀ step ∈ steps, LeadInto base changes step.paths) :
    (runSteps filled steps).Within base changes changes := by
  induction steps generalizing filled with
  | nil => trivial
  | cons step others ih =>
    obtain ⟨hstep, hothers⟩ := List.forall_mem_cons.mp hsteps
    refine .bind (within_attempt hstep) fun reply => ?_
    cases reply with
    | error fault => exact .bind (within_removeAll hfilled) fun _ => trivial
    | ok done =>
      refine ih (fun p hp => ?_) hothers
      rcases List.mem_append.mp hp with hp | hp
      · exact hfilled p hp
      · rw [List.mem_singleton.mp hp]
        exact hstep _ step.target_mem_paths

end Installation

theorem within_install {base : Disk} {changes : Set Location}
    (h : LeadInto base changes (made.map (·.place) ++ made.map fun a => stagingPath a.place)) :
    (install made).Within base changes changes := by
  have hplace : ∀ a ∈ made, ∃ l ∈ changes, base.resolve a.place = .ok l := fun a ha =>
    h _ (List.mem_append_left _ (List.mem_map.mpr ⟨a, ha, rfl⟩))
  have hstaging : ∀ a ∈ made, ∃ l ∈ changes, base.resolve (stagingPath a.place) = .ok l :=
    fun a ha => h _ (List.mem_append_right _ (List.mem_map.mpr ⟨a, ha, rfl⟩))
  refine within_runSteps (fun p hp => nomatch hp) fun step hstep => ?_
  rcases List.mem_append.mp hstep with hstep | hstep <;>
    obtain ⟨a, ha, rfl⟩ := List.mem_map.mp hstep
  · simpa [LeadInto, paths] using hstaging a ha
  · simpa [LeadInto, paths] using ⟨hstaging a ha, hplace a ha⟩

end Jack
