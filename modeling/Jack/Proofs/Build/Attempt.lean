import Jack.Proofs.Build.Batch
import Jack.Proofs.Build.Collection
import Jack.Proofs.Disk.Trace

/-! Which files a build attempts. To attempt a source is to read it, and nothing else in a build
reads a file: not the search for sources, nor the making of directories, nor the installing of
artifacts. So a build reads each source once, in their order, if it comes to the jobs at all. -/

namespace Jack

open Disk

variable {d d' : Disk} {input : Path} {o : Options} {sources : List Path}

/-! What the parts of a build ask for. -/

theorem looks_isSource (p : Path) : (isSource p).AsksOnly Request.Looks :=
  .bind (.request trivial) fun _ => trivial

theorem looks_keepSources (paths : List Path) : (keepSources paths).AsksOnly Request.Looks := by
  induction paths with
  | nil => trivial
  | cons p others ih =>
    exact .bind (looks_isSource p) fun _ => .bind ih fun _ => trivial

theorem looks_collectSources (input : Path) :
    (collectSources input).AsksOnly Request.Looks := by
  refine .bind (.request trivial) fun status => ?_
  split
  · refine .bind (.request trivial) fun reply => ?_
    cases reply with
    | error fault => trivial
    | ok names => exact .bind (looks_keepSources _) fun _ => trivial
  · refine .bind (looks_isSource input) fun kept => ?_
    split <;> trivial

theorem asksOnly_unlessDirectory (p : Path) (fault : Fault) :
    (makeDirs.unlessDirectory p fault).AsksOnly (·.reads = []) :=
  .bind (.request rfl) fun _ => trivial

theorem asksOnly_makeDirs (p : Path) : (makeDirs p).AsksOnly (·.reads = []) := by
  induction hlength : p.text.length using Nat.strongRecOn generalizing p with
  | ind n ih =>
    rw [makeDirs]
    split
    · trivial
    refine .bind (.request rfl) fun reply => ?_
    split
    · trivial
    · split
      · trivial
      · next q above =>
        have habove := ih q.text.length (hlength ▸ Path.parent_length_lt above) q rfl
        refine .bind habove fun made => ?_
        cases made with
        | error fault => trivial
        | ok done =>
          refine .bind (.request rfl) fun again => ?_
          cases again with
          | error fault => exact asksOnly_unlessDirectory p fault
          | ok done => trivial
    · exact asksOnly_unlessDirectory p _

namespace Installation

theorem asksOnly_removeAll (paths : List Path) : (removeAll paths).AsksOnly (·.reads = []) := by
  induction paths with
  | nil => trivial
  | cons p others ih => exact .bind (.request rfl) fun _ => ih

theorem asksOnly_attempt (step : Installation) : step.attempt.AsksOnly (·.reads = []) := by
  cases step with
  | stage a => exact .request rfl
  | place a => exact .request rfl

theorem asksOnly_runSteps (filled : List Path) (steps : List Installation) :
    (runSteps filled steps).AsksOnly (·.reads = []) := by
  induction steps generalizing filled with
  | nil => trivial
  | cons step others ih =>
    refine .bind (asksOnly_attempt step) fun reply => ?_
    cases reply with
    | ok done => exact ih _
    | error fault => exact .bind (asksOnly_removeAll filled) fun _ => trivial

end Installation

/-- Compiling a source reads it once, and nothing else. -/
theorem reads_compileFile (o : Options) (source : Path) (d : Disk) :
    (compileFile o source).reads d = [source] := by
  have hread : (readSource source).reads d = [source] := by
    have hrequest : (Script.request (.read source)).reads d = [source] := rfl
    rw [readSource, Script.reads_bind, hrequest]
    refine congrArg _ (Script.AsksOnly.reads_eq_nil ?_ _)
    split
    · trivial
    · split <;> trivial
  rw [compileFile, Script.reads_bind, hread]
  refine congrArg _ (Script.AsksOnly.reads_eq_nil ?_ _)
  split
  · trivial
  split
  · trivial
  refine .bind (Installation.asksOnly_runSteps [] _) fun result => ?_
  cases result <;> trivial

namespace Batch

theorem reads_inOrder (o : Options) (sources : List Path) (d : Disk) :
    (inOrder (sources.map (compileFile o))).reads d = sources := by
  induction sources generalizing d with
  | nil => rfl
  | cons source others ih =>
    rw [List.map_cons, inOrder, Script.reads_bind, reads_compileFile, Script.reads_bind, ih]
    exact congrArg _ (List.append_nil _)

theorem asksOnly_prepare (o : Options) (input : Path) :
    (prepare o input).AsksOnly (·.reads = []) := by
  refine .bind ((looks_collectSources input).mono fun _ h => h.reads_eq_nil) fun found => ?_
  split
  · trivial
  · trivial
  · split
    · trivial
    · refine .bind (asksOnly_makeDirs _) fun made => ?_
      cases made <;> trivial

/-! A build whose preparation fails, and one that comes to the jobs. -/

theorem run_build_of_error {e : BuildError} (h : (prepare o input).run d = (.error e, d')) :
    (build o input).run d = (⟨.error e, []⟩, d') ∧
      (build o input).trace d = (prepare o input).trace d := by
  rw [build, Script.run_bind, Script.trace_bind, h]
  exact ⟨rfl, List.append_nil _⟩

theorem reads_build_of_error {e : BuildError} (h : (prepare o input).run d = (.error e, d')) :
    (build o input).reads d = [] := by
  rw [Script.reads, (run_build_of_error h).2]
  exact (asksOnly_prepare o input).reads_eq_nil d

theorem reads_build (h : (prepare o input).run d = (.ok sources, d')) :
    (build o input).reads d = sources := by
  rw [build, Script.reads_bind, (asksOnly_prepare o input).reads_eq_nil, h]
  dsimp only
  rw [Script.reads_bind, reads_inOrder]
  exact List.append_nil _

/-- A build ends with the error, and has only looked at the disk. -/
structure GivesUp (o : Options) (input : Path) (d : Disk) (e : BuildError) : Prop where
  result : (build o input).run d = (⟨.error e, []⟩, d)
  looks : ∀ r ∈ (build o input).trace d, r.Looks

/-- So it ends if the preparation fails before anything but the search for sources. -/
theorem givesUp_of_prepare {e : BuildError} (h : (prepare o input).run d = (.error e, d))
    (htrace : (prepare o input).trace d = (collectSources input).trace d) :
    GivesUp o input d e := by
  obtain ⟨hresult, hsame⟩ := run_build_of_error h
  refine ⟨hresult, ?_⟩
  rw [hsame, htrace]
  exact (looks_collectSources input).of_mem_trace d

theorem givesUp_of_error {e : BuildError} (h : (collectSources input).run d = (.error e, d)) :
    GivesUp o input d e := by
  apply givesUp_of_prepare
  · rw [prepare, Script.run_bind, h]
    rfl
  · rw [prepare, Script.trace_bind, h]
    exact List.append_nil _

theorem givesUp_of_nil (h : (collectSources input).run d = (.ok [], d)) :
    GivesUp o input d (.noSources input) := by
  apply givesUp_of_prepare
  · rw [prepare, Script.run_bind, h]
    rfl
  · rw [prepare, Script.trace_bind, h]
    exact List.append_nil _

/-- How the preparation ends when there are sources. -/
theorem run_prepare (h : (collectSources input).run d = (.ok sources, d)) (hne : sources ≠ []) :
    (prepare o input).run d =
      match o.outDir with
      | none => (.ok sources, d)
      | some dir =>
        (match ((makeDirs dir).run d).1 with
          | .error fault => .error (.creating dir fault)
          | .ok () => .ok sources,
        ((makeDirs dir).run d).2) := by
  rw [prepare, Script.run_bind, h]
  dsimp only
  split
  · next heq => cases heq
  · next heq => exact absurd (Except.ok.inj heq) hne
  · next found _ heq =>
    obtain rfl := Except.ok.inj heq
    cases o.outDir with
    | none => rfl
    | some dir =>
      dsimp only
      rw [Script.run_bind]
      cases ((makeDirs dir).run d).1 <;> rfl

/-- The input names these sources, each of them once. If there are none, the build gives up;
otherwise it attempts each of them once, unless the directory for the artifacts is asked for and
cannot be made. -/
structure Attempts (o : Options) (input : Path) (d : Disk) (sources : List Path) : Prop where
  collected : (collectSources input).run d = (.ok sources, d)
  nodup : sources.Nodup
  nothing : sources = [] → GivesUp o input d (.noSources input)
  ready : sources ≠ [] → (∀ dir, o.outDir = some dir → ((makeDirs dir).run d).1 = .ok ()) →
    (build o input).reads d = sources ∧
      ∃ d', d.GrowsTo d' ∧ (build o input).run d =
        (report ((inOrder (sources.map (compileFile o))).run d').1,
          ((inOrder (sources.map (compileFile o))).run d').2)
  unready : sources ≠ [] → ∀ dir fault, o.outDir = some dir →
    ((makeDirs dir).run d).1 = .error fault →
      ((build o input).run d).1 = ⟨.error (.creating dir fault), []⟩ ∧
        (build o input).reads d = []

theorem attempts_of_collected (o : Options) (h : (collectSources input).run d = (.ok sources, d))
    (hnodup : sources.Nodup) : Attempts o input d sources where
  collected := h
  nodup := hnodup
  nothing hnil := givesUp_of_nil (hnil ▸ h)
  ready hne hready := by
    have hprepare : ∃ d', (prepare o input).run d = (.ok sources, d') := by
      rw [run_prepare h hne]
      cases hdir : o.outDir with
      | none => exact ⟨d, rfl⟩
      | some dir =>
        dsimp only
        rw [hready dir hdir]
        exact ⟨_, rfl⟩
    obtain ⟨d', hprepare⟩ := hprepare
    exact ⟨reads_build hprepare, d', (prepared_of_prepare hprepare).grows, run_build hprepare⟩
  unready hne dir fault hdir hfault := by
    have hprepare : (prepare o input).run d =
        (.error (.creating dir fault), ((makeDirs dir).run d).2) := by
      rw [run_prepare h hne, hdir]
      dsimp only
      rw [hfault]
    exact ⟨congrArg Prod.fst (run_build_of_error hprepare).1, reads_build_of_error hprepare⟩

end Batch

open Batch

/-- A directory names exactly the sources directly inside it, in the strict order of their names and
in whichever of all the orders it is listed; the path of a source names that source; and all other
paths are refused. The build of what is named attempts each source once, or gives up before. -/
theorem build_attempts_sources (o : Options) (input : Path) (h : d.Sound) :
    (∀ l, d.resolve input = .ok l → d.get? l = some .directory →
      (∀ listing, listing.Perm (d.children l) →
        ∃ d' : Disk, d'.Reorders d ∧ d'.list input = .ok listing) ∧
      ∃ names : List String, names.Pairwise (· < ·) ∧
        (∀ name, name ∈ names ↔ d.SourceAt (l ++ [name])) ∧
        ∀ d' : Disk, d'.Reorders d → Attempts o input d' (names.map input.join)) ∧
    (∀ l, d.resolve input = .ok l → d.SourceAt l → Attempts o input d [input]) ∧
    ((∀ l, d.resolve input = .ok l → d.get? l ≠ some .directory ∧ ¬d.SourceAt l) →
      (collectSources input).run d = (.error (.notSource input), d) ∧
        GivesUp o input d (.notSource input)) := by
  refine ⟨fun l hp hl => ?_, fun l hp hl => ?_, fun hother => ?_⟩
  · have hplace {d' : Disk} (hd' : d'.Reorders d) :
        d'.resolve input = .ok l ∧ d'.get? l = some .directory :=
      ⟨(hd'.agreeOn h.distinct).resolve.mpr hp, (hd'.get? h.distinct l).trans hl⟩
    refine ⟨fun listing hlisting => ?_, d.sourceNames input l, pairwise_sourceNames h input l,
      fun name => mem_sourceNames_iff h (enter_of_directory hp hl), fun d' hd' => ?_⟩
    · obtain ⟨d', hd', hchildren⟩ := exists_reorders_children hlisting
      obtain ⟨hp', hl'⟩ := hplace hd'
      exact ⟨d', hd', by rw [list_eq hp', hl', hchildren]⟩
    · obtain ⟨hp', hl'⟩ := hplace hd'
      have hcollect := run_collectSources_directory hp' hl'
      rw [hd'.sourceNames h] at hcollect
      exact attempts_of_collected o hcollect (nodup_sources h input l)
  · exact attempts_of_collected o (run_collectSources_source h hp hl) (List.nodup_singleton _)
  · have hcollect := run_collectSources_other h hother
    exact ⟨hcollect, givesUp_of_error hcollect⟩

/-! A directory with two sources, and with names that look like those of sources. -/

section

def mixed : Disk where
  entries := [(["p"], .directory), (["p", "b.x.jack"], .file .empty),
    (["p", "A.jack"], .file .empty), (["p", ".jack"], .file .empty),
    (["p", "C.JACK"], .file .empty), (["p", "D.jack"], .directory),
    (["p", "D.jack", "E.jack"], .file .empty)]
  here := []

theorem sound_mixed : mixed.Sound where
  named := by decide +kernel
  distinct := by decide +kernel
  inside := by
    simp only [mixed, List.forall_mem_cons]
    exact ⟨rfl, rfl, rfl, rfl, rfl, rfl, rfl, nofun⟩
  here := rfl

theorem collectSources_mixed : (collectSources ⟨"p"⟩).run mixed =
    (.ok [⟨"p/A.jack"⟩, ⟨"p/b.x.jack"⟩], mixed) := by
  have hp : mixed.resolve ⟨"p"⟩ = .ok ["p"] := rfl
  have hsorted : ((mixed.children ["p"]).mergeSort fun a b => decide (a ≤ b)) =
      [".jack", "A.jack", "C.JACK", "D.jack", "b.x.jack"] := by
    have hchildren : mixed.children ["p"] =
        ["b.x.jack", "A.jack", ".jack", "C.JACK", "D.jack"] := rfl
    rw [hchildren]
    simp [List.mergeSort, List.MergeSort.Internal.splitInTwo]
  have hkept : ([".jack", "A.jack", "C.JACK", "D.jack", "b.x.jack"].filter fun name =>
      mixed.hasSource (Path.join ⟨"p"⟩ name)) = ["A.jack", "b.x.jack"] := by decide +kernel
  rw [run_collectSources_directory hp rfl, sourceNames, hsorted, hkept]
  rfl

theorem build_attempts_sources_mixed : mixed.Sound ∧
    (∀ d' : Disk, d'.Reorders mixed →
      Attempts {} ⟨"p"⟩ d' [⟨"p/A.jack"⟩, ⟨"p/b.x.jack"⟩]) ∧
    Attempts {} ⟨"p/A.jack"⟩ mixed [⟨"p/A.jack"⟩] ∧
    GivesUp {} ⟨"p/q.jack"⟩ mixed (.notSource ⟨"p/q.jack"⟩) := by
  obtain ⟨hdirectory, -, -⟩ := build_attempts_sources {} ⟨"p"⟩ sound_mixed
  obtain ⟨-, hsource, -⟩ := build_attempts_sources {} ⟨"p/A.jack"⟩ sound_mixed
  obtain ⟨-, -, hother⟩ := build_attempts_sources {} ⟨"p/q.jack"⟩ sound_mixed
  refine ⟨sound_mixed, ?_, ?_, ?_⟩
  · obtain ⟨-, names, -, -, hall⟩ := hdirectory ["p"] rfl rfl
    have hcollected := (hall mixed ⟨rfl, .refl _⟩).collected
    rw [collectSources_mixed, Prod.mk.injEq, Except.ok.injEq] at hcollected
    rw [hcollected.1]
    exact hall
  · exact hsource ["p", "A.jack"] rfl ⟨⟨_, rfl⟩, "A", by decide, rfl⟩
  · refine (hother fun l hl => ?_).2
    obtain rfl : ["p", "q.jack"] = l := Except.ok.inj hl
    exact ⟨nofun, fun hsource => nomatch hsource.file⟩

end

/-! A file where the directory for the artifacts is to be made. -/

section

def blocked : Disk where
  entries := [(["p"], .directory), (["p", "A.jack"], .file "class A { let }".toUTF8),
    (["o"], .file "x".toUTF8)]
  here := []

/-- The one source is named and not attempted. -/
theorem source_not_attempted_blocked : blocked.Sound ∧ blocked.SourceAt ["p", "A.jack"] ∧
    (collectSources ⟨"p"⟩).run blocked = (.ok [⟨"p/A.jack"⟩], blocked) ∧
    (build { outDir := some ⟨"o"⟩ } ⟨"p"⟩).reads blocked = [] ∧
    ((build { outDir := some ⟨"o"⟩ } ⟨"p"⟩).run blocked).1 =
      ⟨.error (.creating ⟨"o"⟩ .alreadyExists), []⟩ := by
  have hsound : blocked.Sound := by
    refine ⟨by decide +kernel, by decide +kernel, ?_, rfl⟩
    simp only [blocked, List.forall_mem_cons]
    exact ⟨rfl, rfl, rfl, nofun⟩
  have hcollect : (collectSources ⟨"p"⟩).run blocked = (.ok [⟨"p/A.jack"⟩], blocked) := by
    have hp : blocked.resolve ⟨"p"⟩ = .ok ["p"] := rfl
    have hchildren : blocked.children ["p"] = ["A.jack"] := rfl
    have hkept : (["A.jack"].filter fun name => blocked.hasSource (Path.join ⟨"p"⟩ name)) =
        ["A.jack"] := by decide +kernel
    rw [run_collectSources_directory hp rfl, sourceNames, hchildren, List.mergeSort_singleton,
      hkept]
    rfl
  have hmade : ((makeDirs ⟨"o"⟩).run blocked).1 = .error .alreadyExists := by
    have hmake : blocked.makeDir ⟨"o"⟩ = .error .alreadyExists := rfl
    rw [makeDirs, if_neg (by decide), Script.run_bind, run_makeDir, hmake]
    rfl
  have hattempts :=
    attempts_of_collected { outDir := some ⟨"o"⟩ } hcollect (List.nodup_singleton _)
  obtain ⟨hresult, hreads⟩ := hattempts.unready (List.cons_ne_nil _ _) _ _ rfl hmade
  exact ⟨hsound, ⟨⟨_, rfl⟩, "A", by decide, rfl⟩, hcollect, hreads, hresult⟩

end

end Jack
