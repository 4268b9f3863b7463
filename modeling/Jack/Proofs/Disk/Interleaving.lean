import Jack.Proofs.Disk.Script

/-! Jobs that take turns on one disk, a request at a time and in any order. If no job changes what
another one sees, each does what it would do alone: its result, and what it leaves at the places
that it sees, are those of a run from the first disk. -/

namespace Jack

open Disk

variable {α : Type} {base d d' d'' : Disk} {sees changes : ℕ → Set Location}
  {jobs : List (Script α)} {results results' : List α}

/-- The jobs can take turns so that these are their results, and this is what the disk comes to. -/
inductive Interleaved : List (Script α) → Disk → List α → Disk → Prop
  | done (results : List α) (d : Disk) : Interleaved (results.map .done) d results d
  | step {jobs : List (Script α)} {d d' : Disk} {results : List α} (i : ℕ) {request : Request}
      {next : request.Reply → Script α} (job : jobs[i]? = some (.ask request next))
      (later : Interleaved (jobs.set i (next (d.answer request).1)) (d.answer request).2
        results d') :
      Interleaved jobs d results d'

/-- Each job keeps to places of its own, and none changes what another one sees. -/
structure Confined (base : Disk) (sees changes : ℕ → Set Location) (jobs : List (Script α)) :
    Prop where
  within : ∀ i (job : Script α), jobs[i]? = some job → job.Within base (sees i) (changes i)
  own : ∀ i, changes i ⊆ sees i
  apart : ∀ i j, i ≠ j → sees j ⊆ (changes i)ᶜ

theorem Confined.set (h : Confined base sees changes jobs) {i : ℕ} {job : Script α}
    (hjob : job.Within base (sees i) (changes i)) :
    Confined base sees changes (jobs.set i job) := by
  refine ⟨fun j other hother => ?_, h.own, h.apart⟩
  rw [List.getElem?_set] at hother
  split at hother
  · next hsame =>
    subst hsame
    split at hother
    · exact Option.some.inj hother ▸ hjob
    · cases hother
  · exact h.within j other hother

/-- What a job is going to come to is not changed by a step, be it its own or that of another
job. -/
theorem Confined.run_step (h : Confined base sees changes jobs) (hbase : base.AgreeOn ∅ d)
    {i : ℕ} {request : Request} {next : request.Reply → Script α}
    (hi : jobs[i]? = some (.ask request next)) {j : ℕ} {job : Script α}
    (hj : jobs[j]? = some job) :
    ∃ job', (jobs.set i (next (d.answer request).1))[j]? = some job' ∧
      (job.run d).1 = (job'.run (d.answer request).2).1 ∧
      (job.run d).2.AgreeOn (sees j) (job'.run (d.answer request).2).2 := by
  by_cases hsame : i = j
  · subst hsame
    have hlength : i < jobs.length := (List.getElem?_eq_some_iff.mp hi).1
    obtain rfl : Script.ask request next = job := Option.some.inj (hi.symm.trans hj)
    exact ⟨_, List.getElem?_set_self hlength, rfl, .refl _ _⟩
  · have hframe : d.AgreeOn (sees j) (d.answer request).2 :=
      ((h.within i _ hi).1.answer_frame hbase).mono (h.apart i j hsame)
    obtain ⟨hresult, hdisk⟩ := (h.within j job hj).run_agree (h.own j) hbase hframe
    exact ⟨job, by rw [List.getElem?_set_ne hsame, hj], hresult, hdisk⟩

theorem Interleaved.alone (hjobs : Interleaved jobs d results d')
    (h : Confined base sees changes jobs) (hbase : base.AgreeOn ∅ d) :
    results = jobs.map (fun job : Script α => (job.run d).1) ∧
      (∀ i (job : Script α), jobs[i]? = some job → (job.run d).2.AgreeOn (sees i) d') ∧
      d.AgreeOn {l | ∀ i, l ∉ changes i} d' := by
  induction hjobs with
  | done results d =>
    refine ⟨?_, fun i job hjob => ?_, .refl _ d⟩
    · rw [List.map_map]
      exact (List.map_id results).symm
    · rw [List.getElem?_map, Option.map_eq_some_iff] at hjob
      obtain ⟨result, -, rfl⟩ := hjob
      exact .refl _ d
  | @step jobs d d' results i request next hjob _ ih =>
    obtain ⟨hrequest, hnext⟩ := h.within i _ hjob
    have hframe := hrequest.answer_frame hbase
    have hlater := hbase.trans (hframe.mono (Set.empty_subset _))
    have hunchanged : {l | ∀ i, l ∉ changes i} ⊆ (changes i)ᶜ := fun l hl => hl i
    obtain ⟨hresults, hdisk, houtside⟩ := ih (h.set (hnext _)) hlater
    refine ⟨?_, fun j job hj => ?_, (hframe.mono hunchanged).trans houtside⟩
    · rw [hresults]
      refine List.ext_getElem? fun j => ?_
      rw [List.getElem?_map, List.getElem?_map]
      cases hj : jobs[j]? with
      | none => simp [List.getElem?_eq_none_iff.mp hj]
      | some job =>
        obtain ⟨job', hjob', hresult, -⟩ := h.run_step hbase hjob hj
        rw [hjob', Option.map_some, Option.map_some, hresult]
    · obtain ⟨job', hjob', -, hagree⟩ := h.run_step hbase hjob hj
      exact hagree.trans (hdisk j job' hjob')

/-- In whichever order they take their steps, the jobs come to the same results and the disk to the
same state. -/
theorem Interleaved.unique (hjobs : Interleaved jobs d results d')
    (hjobs' : Interleaved jobs d results' d'') (h : Confined base sees changes jobs)
    (hnone : ∀ i, jobs[i]? = none → changes i = ∅) (hbase : base.AgreeOn ∅ d) :
    results = results' ∧ d'.AgreeOn Set.univ d'' := by
  obtain ⟨hresults, hdisk, houtside⟩ := hjobs.alone h hbase
  obtain ⟨hresults', hdisk', houtside'⟩ := hjobs'.alone h hbase
  have hagree := houtside.symm.trans houtside'
  refine ⟨hresults.trans hresults'.symm, hagree.here, hagree.directory, fun l _ => ?_⟩
  by_cases hl : ∀ i, l ∉ changes i
  · exact hagree.entry l hl
  · obtain ⟨i, hi⟩ := not_forall_not.mp hl
    -- the place is one that some job changes, so it is as that job leaves it
    cases hjob : jobs[i]? with
    | none =>
      rw [hnone i hjob] at hi
      exact hi.elim
    | some job =>
      have hseen := h.own i hi
      exact ((hdisk i job hjob).entry l hseen).symm.trans ((hdisk' i job hjob).entry l hseen)

/-! One of the orders: each job to its end before the next one begins. -/

theorem Interleaved.cons_done (hjobs : Interleaved jobs d results d') (result : α) :
    Interleaved (.done result :: jobs) d (result :: results) d' := by
  induction hjobs with
  | done results d => exact .done (result :: results) d
  | step i job _ ih => exact .step (i + 1) (by rwa [List.getElem?_cons_succ]) ih

theorem Interleaved.cons_run (s : Script α)
    (h : Interleaved (.done (s.run d).1 :: jobs) (s.run d).2 results d') :
    Interleaved (s :: jobs) d results d' := by
  induction s generalizing d with
  | done result => exact h
  | ask request next ih =>
    exact .step 0 List.getElem?_cons_zero (ih _ h)

/-- A single job has the disk to itself. -/
theorem Interleaved.eq_run {s : Script α} (h : Interleaved [s] d results d') :
    results = [(s.run d).1] ∧ d' = (s.run d).2 := by
  generalize hjobs : [s] = jobs at h
  induction h generalizing s with
  | done results d =>
    obtain ⟨result, rest, rfl, rfl, hrest⟩ := List.map_eq_cons_iff.mp hjobs.symm
    rw [List.map_eq_nil_iff.mp hrest]
    exact ⟨rfl, rfl⟩
  | @step jobs d d' results i request next hjob _ ih =>
    subst hjobs
    cases i with
    | zero =>
      obtain rfl : s = .ask request next := Option.some.inj hjob
      exact ih rfl
    | succ i => exact nomatch hjob

end Jack
