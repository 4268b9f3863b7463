import Jack.Build.Batch
import Jack.Proofs.Build.Sources
import Jack.Proofs.Disk.Growth

/-! What is done before the first source is compiled. Directories may be added to the disk, and
nothing else is changed, so every source is found where it was; and when everything is prepared, the
path of the directory for the artifacts leads somewhere. -/

namespace Jack

open Disk

variable {d d' : Disk}

/-- What a script has made of the disk if directories up to the path were to be made. -/
def Disk.ReadyFor (d : Disk) (p : Path) : Except Fault Unit × Disk → Prop
  | (.ok (), d') => d.GrowsTo d' ∧ ∃ l, d'.enter p = .ok l
  | (.error _, d') => d.GrowsTo d'

theorem Disk.ReadyFor.after {p : Path} {x : Except Fault Unit × Disk} (h : d.GrowsTo d')
    (hx : d'.ReadyFor p x) : d.ReadyFor p x := by
  obtain ⟨result, d''⟩ := x
  cases result with
  | error fault => exact h.trans hx
  | ok done => exact ⟨h.trans hx.1, hx.2⟩

theorem readyFor_unlessDirectory (p : Path) (fault : Fault) (d : Disk) :
    d.ReadyFor p ((makeDirs.unlessDirectory p fault).run d) := by
  have hrun : (makeDirs.unlessDirectory p fault).run d =
      (if d.status p = .directory then .ok () else .error fault, d) := rfl
  rw [hrun]
  split
  · next hdir =>
    obtain ⟨l, hp, hl⟩ := exists_of_status_directory hdir
    exact ⟨.refl d, l, enter_of_directory hp hl⟩
  · exact .refl d

theorem run_makeDir (p : Path) (d : Disk) :
    (Script.request (.makeDir p)).run d = d.change (d.makeDir p) := rfl

/-- Making directories adds them and nothing else, and if all goes well the path leads into the last
one. -/
theorem readyFor_makeDirs (p : Path) (d : Disk) : d.ReadyFor p ((makeDirs p).run d) := by
  induction hlength : p.text.length using Nat.strongRecOn generalizing p d with
  | ind n ih =>
    rw [makeDirs]
    split
    · next htext =>
      obtain rfl : p = ⟨""⟩ := congrArg Path.mk htext
      exact ⟨.refl d, d.here, rfl⟩
    rw [Script.run_bind, run_makeDir]
    cases hmake : d.makeDir p with
    | ok d₁ => exact growsTo_makeDir hmake
    | error fault =>
      dsimp only [change]
      split
      · next heq => cases heq
      · next heq =>
        split
        · exact .refl d
        · next q above =>
          have hready := ih q.text.length (hlength ▸ Path.parent_length_lt above) q d rfl
          rw [Script.run_bind]
          cases hrun : (makeDirs q).run d with
          | mk result d₁ =>
            rw [hrun] at hready
            cases result with
            | error fault => exact hready
            | ok done =>
              refine .after hready.1 ?_
              dsimp only
              rw [Script.run_bind, run_makeDir]
              cases hagain : d₁.makeDir p with
              | ok d₂ => exact growsTo_makeDir hagain
              | error fault => exact readyFor_unlessDirectory p fault d₁
      · exact readyFor_unlessDirectory p _ d

namespace Batch

/-- How things stand when the jobs begin. -/
structure Prepared (o : Options) (input : Path) (d₀ d : Disk) (sources : List Path) : Prop where
  names : d₀.Names input sources
  grows : d₀.GrowsTo d
  outDir : ∀ dir, o.outDir = some dir → ∃ l, d.enter dir = .ok l

variable {o : Options} {input : Path} {d₀ d : Disk} {sources : List Path}

theorem prepared_of_prepare (h : (prepare o input).run d₀ = (.ok sources, d)) :
    Prepared o input d₀ d sources := by
  rw [prepare, Script.run_bind] at h
  cases hcollect : (collectSources input).run d₀ with
  | mk result d₁ =>
    rw [hcollect] at h
    dsimp only at h
    split at h
    · cases h
    · cases h
    · next found _ =>
      obtain ⟨rfl, hnames⟩ := names_of_collectSources hcollect
      split at h
      · next hnone =>
        cases h
        exact ⟨hnames, .refl _, fun dir hdir => nomatch hnone.symm.trans hdir⟩
      · next dir hsome =>
        rw [Script.run_bind] at h
        have hready := readyFor_makeDirs dir d₁
        cases hmade : (makeDirs dir).run d₁ with
        | mk made d₂ =>
          rw [hmade] at h hready
          cases made with
          | error fault => cases h
          | ok done =>
            cases h
            obtain ⟨hgrows, henter⟩ := hready
            refine ⟨hnames, hgrows, fun dir' hdir' => ?_⟩
            obtain rfl := Option.some.inj (hsome.symm.trans hdir')
            exact henter

/-- The sources are alone, or files in one directory that have one directory for their
artifacts. -/
theorem Prepared.sources_cases (h : Prepared o input d₀ d sources) (hnamed : d₀.WellNamed) :
    sources = [input] ∨
      (∀ source ∈ sources, ∃ stem, d.SourceIn input source stem) ∧
        ∃ dir, ∀ source ∈ sources, d.enter (o.home source) = .ok dir := by
  by_cases halone : sources = [input]
  · exact .inl halone
  have hsource : ∀ source ∈ sources, ∃ stem, d.SourceIn input source stem := by
    intro source hmem
    obtain ⟨stem, hin⟩ := (h.names.sourceIn hnamed hmem).resolve_left halone
    exact ⟨stem, hin.eq, hin.named, hin.stem, h.grows.status_file hin.file⟩
  refine .inr ⟨hsource, ?_⟩
  cases houtDir : o.outDir with
  | some dir =>
    obtain ⟨l, hl⟩ := h.outDir dir houtDir
    refine ⟨l, fun source _ => ?_⟩
    rw [Options.home, houtDir]
    exact hl
  | none =>
    have hhome : ∀ source ∈ sources, d.enter (o.home source) = d.enter input := by
      intro source hmem
      obtain ⟨stem, hin⟩ := hsource source hmem
      have hparent := Path.parent_join hin.named input
      rw [Options.home, houtDir, hin.eq, hparent]
      exact d.enter_parent hin.named hparent
    cases henter : d.enter input with
    | ok l => exact ⟨l, fun source hmem => (hhome source hmem).trans henter⟩
    | error fault =>
      -- then there would be no source to begin with
      refine ⟨[], fun source hmem => ?_⟩
      obtain ⟨stem, hin⟩ := hsource source hmem
      obtain ⟨l, content, hl, -⟩ := exists_of_status_file hin.file
      rw [hin.eq, resolve_join d input hin.named, henter] at hl
      cases hl

end Batch

end Jack
