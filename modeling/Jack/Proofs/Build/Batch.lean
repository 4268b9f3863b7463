import Jack.Proofs.Build.Prepare
import Jack.Proofs.Disk.Interleaving

/-! The jobs of a build side by side. A job changes nothing but what is filled for its source, and
sees the source besides; if no two sources have an artifact at one path, no job changes what another
one sees. So in whichever order they take their steps, the build comes to what it comes to with one
job after the other. -/

namespace Jack.Batch

open Disk

variable {o : Options} {input : Path} {d₀ d d' : Disk} {sources : List Path} {dir : Location}
  {results : List (Except BuildError Path)}

/-- No two of the sources have a path for their artifacts in common. -/
def Apart (o : Options) (sources : List Path) : Prop :=
  sources.Pairwise fun source source' => ∀ p ∈ o.outputs source, p ∉ o.outputs source'

/-- The places that each job changes. -/
def changes (o : Options) (sources : List Path) (dir : Location) (i : ℕ) : Set Location :=
  {l | ∃ source, sources[i]? = some source ∧ l ∈ o.filled source dir}

/-- The places that each job sees. -/
def sees (o : Options) (d : Disk) (sources : List Path) (dir : Location) (i : ℕ) : Set Location :=
  {l | l ∈ changes o sources dir i ∨ ∃ source, sources[i]? = some source ∧ d.resolve source = .ok l}

/-! Where the artifacts are apart, so is everything that is filled, and the jobs keep apart. -/

theorem exists_text_of_output {source p : Path} (hp : p ∈ o.outputs source) :
    ∃ front, ∃ ending ∈ Options.everything.endings, p.text = front ++ ending := by
  rw [Options.outputs_eq] at hp
  obtain ⟨ending, hending, rfl⟩ := List.mem_map.mp hp
  have hname := o.isEntryName_nameWith source (o.mem_fillEndings_of_mem_endings hending).1
  refine ⟨(o.home source).lead ++ source.stem.getD "", ending,
    o.endings_subset ending hending, ?_⟩
  rw [Options.pathWith, Path.join_eq _ hname.no_slash, Options.nameWith, ← String.append_assoc]

theorem output_ne_stagingPath {source p : Path} (hp : p ∈ o.outputs source) (q : Path) :
    p ≠ stagingPath q := by
  have hall : ∀ e ∈ Options.everything.endings,
      ¬(e.toList <:+ ".tmp".toList ∨ ".tmp".toList <:+ e.toList) := by decide
  rintro rfl
  obtain ⟨front, ending, hending, htext⟩ := exists_text_of_output hp
  exact hall ending hending (suffix_or_suffix_of_append_eq htext.symm)

theorem not_mem_fills {source source' p : Path}
    (houtputs : ∀ p ∈ o.outputs source, p ∉ o.outputs source') (hp : p ∈ o.fills source) :
    p ∉ o.fills source' := by
  intro hp'
  rcases List.mem_append.mp hp with hout | hstaged <;>
    rcases List.mem_append.mp hp' with hout' | hstaged'
  · exact houtputs p hout hout'
  · obtain ⟨q, -, rfl⟩ := List.mem_map.mp hstaged'
    exact output_ne_stagingPath hout q rfl
  · obtain ⟨q, -, rfl⟩ := List.mem_map.mp hstaged
    exact output_ne_stagingPath hout' q rfl
  · obtain ⟨q, hq, rfl⟩ := List.mem_map.mp hstaged
    obtain ⟨q', hq', heq⟩ := List.mem_map.mp hstaged'
    rw [stagingPath, stagingPath, Path.mk.injEq, String.append_left_inj] at heq
    obtain rfl : q' = q := congrArg Path.mk heq
    exact houtputs q' hq hq'

theorem Apart.not_mem (h : Apart o sources) {i j : ℕ} (hne : i ≠ j) {source source' : Path}
    (hi : sources[i]? = some source) (hj : sources[j]? = some source') {p : Path}
    (hp : p ∈ o.fills source) : p ∉ o.fills source' := by
  obtain ⟨hi', rfl⟩ := List.getElem?_eq_some_iff.mp hi
  obtain ⟨hj', rfl⟩ := List.getElem?_eq_some_iff.mp hj
  refine not_mem_fills (fun q hq hq' => ?_) hp
  rcases Nat.lt_or_gt_of_ne hne with hlt | hlt
  · exact List.pairwise_iff_getElem.mp h i j hi' hj' hlt q hq hq'
  · exact List.pairwise_iff_getElem.mp h j i hj' hi' hlt q hq' hq

theorem eq_of_spotIn {source source' p p' : Path} (hhome : o.home source = o.home source')
    (hp : p ∈ o.fills source) (hp' : p' ∈ o.fills source')
    (heq : Options.spotIn dir p = Options.spotIn dir p') : p = p' := by
  rw [Options.fills_eq] at hp hp'
  obtain ⟨ending, hending, rfl⟩ := List.mem_map.mp hp
  obtain ⟨ending', hending', rfl⟩ := List.mem_map.mp hp'
  rw [Options.spotIn_pathWith dir hending, Options.spotIn_pathWith dir hending',
    List.append_cancel_left_eq, List.singleton_inj] at heq
  rw [Options.pathWith, Options.pathWith, hhome, heq]

/-- No ending makes the name of a source. -/
theorem append_ending_ne_source {ending : String} (h : ending ∈ o.fillEndings)
    (stem stem' : String) : stem ++ ending ≠ stem' ++ ".jack" := by
  have hall : ∀ e ∈ Options.everything.fillEndings,
      ¬(e.toList <:+ ".jack".toList ∨ ".jack".toList <:+ e.toList) := by decide
  intro heq
  exact hall ending (o.fillEndings_subset ending h) (suffix_or_suffix_of_append_eq heq)

theorem resolve_source_ne_spotIn {source source' p : Path} {stem : String}
    (hsource : d.SourceIn input source stem) (hp : p ∈ o.fills source') :
    d.resolve source ≠ .ok (Options.spotIn dir p) := by
  rw [Options.fills_eq] at hp
  obtain ⟨ending, hending, rfl⟩ := List.mem_map.mp hp
  rw [hsource.eq, resolve_join d input hsource.named, Options.spotIn_pathWith dir hending]
  cases d.enter input with
  | error fault => exact nofun
  | ok l =>
    intro heq
    have hnames := congrArg List.getLast? (Except.ok.inj heq)
    rw [List.getLast?_concat, List.getLast?_concat, Option.some.injEq] at hnames
    exact append_ending_ne_source hending _ _ hnames.symm

theorem confined (hsources : ∀ source ∈ sources, ∃ stem, d.SourceIn input source stem)
    (henter : ∀ source ∈ sources, d.enter (o.home source) = .ok dir) (hapart : Apart o sources) :
    Confined d (sees o d sources dir) (changes o sources dir)
      (sources.map (compileFile o)) where
  within i job hjob := by
    obtain ⟨source, hsource, rfl⟩ := Option.map_eq_some_iff.mp (List.getElem?_map ▸ hjob)
    have hmem := List.mem_of_getElem? hsource
    obtain ⟨stem, hin⟩ := hsources source hmem
    obtain ⟨l, content, hl, -⟩ := exists_of_status_file hin.file
    exact within_compileFile (henter source hmem) hl (.inr ⟨source, hsource, hl⟩)
      (fun l hl => ⟨source, hsource, hl⟩) (fun l hl => .inl hl)
  own i l hl := .inl hl
  apart i j hne l hsees hchanges := by
    obtain ⟨source, hsource, p, hp, rfl⟩ := hchanges
    have hmem := List.mem_of_getElem? hsource
    rcases hsees with ⟨source', hsource', p', hp', heq⟩ | ⟨source', hsource', hl⟩
    · have hmem' := List.mem_of_getElem? hsource'
      obtain ⟨stem, hin⟩ := hsources source hmem
      obtain ⟨stem', hin'⟩ := hsources source' hmem'
      have hhome := Options.home_sourceIn (o := o) hin hin'
      obtain rfl := eq_of_spotIn hhome hp hp' heq.symm
      exact hapart.not_mem hne hsource hsource' hp hp'
    · obtain ⟨stem', hin'⟩ := hsources source' (List.mem_of_getElem? hsource')
      exact resolve_source_ne_spotIn hin' hp hl

/-! What the jobs come to. -/

/-- What is on disk of a source is what is at the paths that are filled for it. -/
theorem holds_congr {source : Path} {text : String} (h : o.Holds source text d)
    (hread : ∀ p ∈ o.fills source, d.read p = d'.read p)
    (hstatus : ∀ p ∈ o.fills source, d.status p = d'.status p) : o.Holds source text d' := by
  have hfill {p : Path} (hp : p ∈ o.outputs source) : p ∈ o.fills source :=
    List.mem_append_left _ hp
  refine ⟨?_, fun hxml => ?_, fun htokens => ?_, fun p hp => ?_⟩
  · rw [← hread _ (hfill (by simp [Options.outputs]))]
    exact h.program
  · rw [← hread _ (hfill (by simp [Options.outputs, hxml]))]
    exact h.tree hxml
  · rw [← hread _ (hfill (by simp [Options.outputs, htokens]))]
    exact h.tokens htokens
  · rw [← hstatus _ (List.mem_append_right _ (List.mem_map.mpr ⟨p, hp, rfl⟩))]
    exact h.unstaged p hp

theorem changes_eq_empty {i : ℕ} (h : (sources.map (compileFile o))[i]? = none) :
    changes o sources dir i = ∅ := by
  rw [List.getElem?_map, Option.map_eq_none_iff] at h
  ext l
  constructor
  · rintro ⟨source, hsource, -⟩
    exact nomatch h.symm.trans hsource
  · exact False.elim

section

variable (h : Prepared o input d₀ d sources) (hnamed : d₀.WellNamed) (hapart : Apart o sources)

include h hnamed hapart

/-- Each job has the result that it has alone, and all of the source that it then has on disk. -/
theorem jobs_alone (hjobs : Interleaved (sources.map (compileFile o)) d results d') :
    results = sources.map (fun source => ((compileFile o source).run d).1) ∧
      ∀ source ∈ sources, ∀ text,
        o.Holds source text ((compileFile o source).run d).2 → o.Holds source text d' := by
  rcases h.sources_cases hnamed with rfl | ⟨hsources, dir, henter⟩
  · obtain ⟨rfl, rfl⟩ := hjobs.eq_run
    refine ⟨rfl, fun source hmem text hholds => ?_⟩
    rw [List.mem_singleton.mp hmem] at hholds ⊢
    exact hholds
  · have hconfined := confined hsources henter hapart
    obtain ⟨hresults, hdisk, -⟩ := hjobs.alone hconfined (.refl _ d)
    refine ⟨by rw [hresults, List.map_map]; rfl, fun source hmem text hholds => ?_⟩
    obtain ⟨i, hi⟩ := List.getElem?_of_mem hmem
    have hagree := hdisk i _ (by rw [List.getElem?_map, hi]; rfl)
    have hframe := agreeOn_compileFile o source d
    have hplace {p : Path} (hp : p ∈ o.fills source) :
        ((compileFile o source).run d).2.resolve p = .ok (Options.spotIn dir p) ∧
          Options.spotIn dir p ∈ sees o d sources dir i :=
      ⟨hframe.resolve.mp (Options.resolve_fill (henter source hmem) hp),
        .inl ⟨source, hi, p, hp, rfl⟩⟩
    exact holds_congr hholds (fun p hp => hagree.read (hplace hp).1 (hplace hp).2)
      fun p hp => hagree.status (hplace hp).1 (hplace hp).2

theorem jobs_unique {results' : List (Except BuildError Path)} {d'' : Disk}
    (hjobs : Interleaved (sources.map (compileFile o)) d results d')
    (hjobs' : Interleaved (sources.map (compileFile o)) d results' d'') :
    results = results' ∧ d'.AgreeOn Set.univ d'' := by
  rcases h.sources_cases hnamed with rfl | ⟨hsources, dir, henter⟩
  · obtain ⟨rfl, rfl⟩ := hjobs.eq_run
    obtain ⟨rfl, rfl⟩ := hjobs'.eq_run
    exact ⟨rfl, .refl _ _⟩
  · exact hjobs.unique hjobs' (confined hsources henter hapart) (fun i => changes_eq_empty)
      (.refl _ d)

end

/-- One job after the other is one of the orders. -/
theorem interleaved_inOrder {α : Type} (jobs : List (Script α)) (d : Disk) :
    Interleaved jobs d ((inOrder jobs).run d).1 ((inOrder jobs).run d).2 := by
  induction jobs generalizing d with
  | nil => exact .done [] d
  | cons job others ih =>
    have hrun : (inOrder (job :: others)).run d =
        ((job.run d).1 :: ((inOrder others).run (job.run d).2).1,
          ((inOrder others).run (job.run d).2).2) := by
      rw [inOrder, Script.run_bind, Script.run_bind]
      rfl
    rw [hrun]
    exact .cons_run job ((ih _).cons_done _)

theorem run_build (h : (prepare o input).run d₀ = (.ok sources, d)) : (build o input).run d₀ =
    (report ((inOrder (sources.map (compileFile o))).run d).1,
      ((inOrder (sources.map (compileFile o))).run d).2) := by
  rw [build, Script.run_bind, h]
  dsimp only
  rw [Script.run_bind]
  rfl

/-! What is reported of results. -/

def error? : Except BuildError Path → Option BuildError
  | .error e => some e
  | .ok _ => none

theorem failures_eq (results : List (Except BuildError Path)) :
    failures results = results.filterMap error? := by
  refine congrFun (congrArg List.filterMap (funext fun result => ?_)) results
  cases result <;> rfl

theorem length_failures (results : List (Except BuildError Path)) :
    (failures results).length = results.countP fun result => !result.isOk := by
  rw [failures_eq, List.length_filterMap_eq_countP]
  refine List.countP_congr fun result _ => ?_
  cases result <;> simp [error?, Except.isOk, Except.toBool]

theorem failures_eq_nil_iff : failures results = [] ↔ results.all Except.isOk := by
  rw [← List.length_eq_zero_iff, length_failures, List.countP_eq_zero, List.all_eq_true]
  exact forall₂_congr fun result _ => by simp

/-- If all jobs succeed, their paths are taken in the order of the sources. -/
theorem successes_map {result : Path → Except BuildError Path} {place : Path → Path}
    (hplace : ∀ source p, result source = .ok p → p = place source)
    (hall : (sources.map result).all Except.isOk) :
    successes (sources.map result) = sources.map place := by
  induction sources with
  | nil => rfl
  | cons source others ih =>
    rw [List.map_cons, List.all_cons, Bool.and_eq_true] at hall
    cases hresult : result source with
    | error e =>
      rw [hresult] at hall
      exact nomatch hall.1
    | ok p =>
      have hrest := ih hall.2
      rw [successes] at hrest
      rw [successes, List.map_cons, List.map_cons, hresult, hplace source p hresult]
      exact congrArg _ hrest

/-! The whole build. -/

/-- The jobs of a build have come to these results, and the disk to this state, as they do one after
the other. -/
structure Settled (o : Options) (input : Path) (d₀ d : Disk) (sources : List Path)
    (results : List (Except BuildError Path)) (d' : Disk) : Prop where
  names : d₀.Names input sources
  sequential : results = ((inOrder (sources.map (compileFile o))).run d).1 ∧
    d'.AgreeOn Set.univ ((inOrder (sources.map (compileFile o))).run d).2
  reported : report results = ((build o input).run d₀).1 ∧
    d'.AgreeOn Set.univ ((build o input).run d₀).2
  alone : results = sources.map fun source => ((compileFile o source).run d).1
  outcome : (report results).outcome =
    if results.all Except.isOk then
      .ok (sources.map fun source => outputPath source o.outDir "" "vm")
    else .error (.filesFailed (results.countP fun result => !result.isOk) sources.length)
  logged : (report results).logged =
    sources.filterMap fun source => error? ((compileFile o source).run d).1
  placed : ∀ source ∈ sources, ((compileFile o source).run d).1.isOk →
    ∃ text, d.readText source = .ok text ∧ o.Holds source text d'

/-- If no two sources have an artifact at one path, a build comes to the same in whichever order its
jobs take their steps. -/
theorem interleaved_build_settled (hnamed : d₀.WellNamed)
    (hprepare : (prepare o input).run d₀ = (.ok sources, d)) (hapart : Apart o sources)
    (hjobs : Interleaved (sources.map (compileFile o)) d results d') :
    Settled o input d₀ d sources results d' := by
  have hprepared := prepared_of_prepare hprepare
  obtain ⟨halone, hholds⟩ := jobs_alone hprepared hnamed hapart hjobs
  have hinOrder := jobs_unique hprepared hnamed hapart hjobs (interleaved_inOrder _ d)
  have hplace (source p : Path) (hp : ((compileFile o source).run d).1 = .ok p) :
      p = outputPath source o.outDir "" "vm" :=
    (holds_of_compileFile (Prod.ext hp rfl)).1
  refine ⟨hprepared.names, hinOrder, ?_, halone, ?_, ?_, fun source hmem hok => ?_⟩
  · rw [run_build hprepare, ← hinOrder.1]
    exact ⟨rfl, hinOrder.2⟩
  · have hlength : results.length = sources.length := by rw [halone, List.length_map]
    rw [report, length_failures, hlength]
    by_cases hall : results.all Except.isOk
    · rw [if_pos hall, if_pos (failures_eq_nil_iff.mpr hall)]
      rw [halone] at hall ⊢
      rw [successes_map hplace hall]
    · rw [if_neg hall, if_neg (mt failures_eq_nil_iff.mp hall)]
  · rw [report, failures_eq, halone, List.filterMap_map]
    rfl
  · cases hrun : (compileFile o source).run d with
    | mk result d₁ =>
      rw [hrun] at hok
      cases result with
      | error e => exact nomatch hok
      | ok p =>
        obtain ⟨-, text, hread, hdone⟩ := holds_of_compileFile hrun
        refine ⟨text, hread, hholds source hmem text ?_⟩
        rw [hrun]
        exact hdone

/-- Both jobs read their sources before either of them writes. -/
theorem interleaved_build_settled_clashing : ∃ results d',
    Settled {} ⟨"."⟩ clashing clashing [⟨"./A.jack"⟩, ⟨"./AT.jack"⟩] results d' := by
  have hprepare : (prepare {} ⟨"."⟩).run clashing =
      (.ok [⟨"./A.jack"⟩, ⟨"./AT.jack"⟩], clashing) := by
    rw [prepare, Script.run_bind, collectSources_clashing]
    rfl
  have hapart : Apart {} [⟨"./A.jack"⟩, ⟨"./AT.jack"⟩] := by
    unfold Apart
    decide +kernel
  exact ⟨_, _, interleaved_build_settled (by decide +kernel) hprepare hapart
    (.step 0 rfl (.step 1 rfl (interleaved_inOrder _ _)))⟩

end Jack.Batch
