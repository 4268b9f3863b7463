import Jack.Build.Sources
import Jack.Proofs.Build.Artifacts
import Jack.Proofs.Disk.Sound
import Jack.Proofs.Markup.Element

/-! Which sources an input names, and whether what is filled for them is apart. The sources of one
directory have different stems, but an ending may begin with what another stem ends with: the tokens
of `A` and the tree of `AT` go to one path. Nothing else is ever filled for two sources. -/

namespace Jack

open Disk

variable {d d' : Disk} {input source : Path} {sources : List Path}

/-- Whether a file with the extension of sources is there. -/
def Disk.hasSource (d : Disk) (p : Path) : Bool := d.status p = .file && p.hasSourceExtension

theorem Disk.hasSource_eq_true_iff {p : Path} :
    d.hasSource p ↔ d.status p = .file ∧ p.hasSourceExtension := by
  rw [hasSource, Bool.and_eq_true, decide_eq_true_iff]

theorem run_keepSources (paths : List Path) (d : Disk) :
    (keepSources paths).run d = (paths.filter d.hasSource, d) := by
  induction paths with
  | nil => rfl
  | cons p others ih =>
    have hkept : (isSource p).run d = (d.hasSource p, d) := rfl
    rw [keepSources, Script.run_bind, hkept, Script.run_bind, ih, List.filter_cons]
    rfl

theorem pairwise_mergeSort_le (names : List String) :
    (names.mergeSort fun a b => decide (a ≤ b)).Pairwise (· ≤ ·) := by
  have htrans (a b c : String) (hab : decide (a ≤ b)) (hbc : decide (b ≤ c)) :
      decide (a ≤ c) := decide_eq_true (String.le_trans (of_decide_eq_true hab)
        (of_decide_eq_true hbc))
  have htotal (a b : String) : decide (a ≤ b) || decide (b ≤ a) := by
    rw [Bool.or_eq_true, decide_eq_true_iff, decide_eq_true_iff]
    exact String.le_total a b
  exact (List.pairwise_mergeSort htrans htotal names).imp of_decide_eq_true

/-- The sources are those among the entries of the directory, in the order of their names, or the
input alone. -/
inductive Disk.Names (d : Disk) (input : Path) : List Path → Prop
  | entries (names : List String) (l : Location) (resolved : d.resolve input = .ok l)
      (all : names.Perm (d.children l)) (sorted : names.Pairwise (· ≤ ·)) :
      d.Names input ((names.map input.join).filter d.hasSource)
  | alone (source : d.hasSource input) : d.Names input [input]

theorem run_collectSources (input : Path) (d : Disk) : (collectSources input).run d =
    (if d.status input = .directory then
      match d.list input with
      | .error fault => .error (.reading input fault)
      | .ok names => .ok (((names.mergeSort fun a b => decide (a ≤ b)).map input.join).filter
          d.hasSource)
    else if d.hasSource input then .ok [input]
    else .error (.notSource input), d) := by
  have hstatus : (Script.request (.status input)).run d = (d.status input, d) := rfl
  have hlist : (Script.request (.list input)).run d = (d.list input, d) := rfl
  have hkept : (isSource input).run d = (d.hasSource input, d) := rfl
  rw [collectSources, Script.run_bind, hstatus]
  dsimp only
  split
  · rw [Script.run_bind, hlist]
    cases d.list input with
    | error fault => rfl
    | ok names =>
      dsimp only
      rw [Script.run_bind, run_keepSources]
      rfl
  · rw [Script.run_bind, hkept]
    dsimp only
    split <;> rfl

theorem names_of_collectSources (h : (collectSources input).run d = (.ok sources, d')) :
    d' = d ∧ d.Names input sources := by
  rw [run_collectSources] at h
  obtain ⟨hresult, rfl⟩ := Prod.mk.inj h
  refine ⟨rfl, ?_⟩
  split at hresult
  · cases hnames : d.list input with
    | error fault =>
      rw [hnames] at hresult
      cases hresult
    | ok names =>
      obtain ⟨l, hl, rfl⟩ := exists_of_list hnames
      rw [hnames] at hresult
      obtain rfl := Except.ok.inj hresult
      exact .entries _ l hl (List.mergeSort_perm _ _) (pairwise_mergeSort_le _)
  · split at hresult
    · next hsource =>
      obtain rfl := Except.ok.inj hresult
      exact .alone hsource
    · cases hresult

/-! The sources of a directory. -/

/-- A file in the directory, with the extension of sources and this stem. -/
structure Disk.SourceIn (d : Disk) (dir source : Path) (stem : String) : Prop where
  eq : source = dir.join (stem ++ ".jack")
  named : Path.IsEntryName (stem ++ ".jack")
  stem : source.stem = some stem
  file : d.status source = .file

theorem sourceIn_of_hasSource {dir : Path} {name : String} (hname : Path.IsEntryName name)
    (h : d.hasSource (dir.join name)) : ∃ stem, d.SourceIn dir (dir.join name) stem := by
  obtain ⟨hfile, hextension⟩ := hasSource_eq_true_iff.mp h
  obtain ⟨stem, hstem, hfileName⟩ := Path.fileName_of_extension (beq_iff_eq.mp hextension)
  rw [Path.fileName_join hname, Option.some.injEq, String.toList_inj] at hfileName
  have heq : name = stem ++ ".jack" := by
    rw [hfileName, String.append_assoc]
    rfl
  subst heq
  exact ⟨stem, rfl, hname, hstem, hfile⟩

theorem Disk.Names.sourceIn (h : d.Names input sources) (hnamed : d.WellNamed)
    (hsource : source ∈ sources) : sources = [input] ∨ ∃ stem, d.SourceIn input source stem := by
  cases h with
  | entries names l _ hall _ =>
    obtain ⟨hmem, hhas⟩ := List.mem_filter.mp hsource
    obtain ⟨name, hname, rfl⟩ := List.mem_map.mp hmem
    have hentry := isEntryName_of_mem_children hnamed (hall.mem_iff.mp hname)
    exact .inr (sourceIn_of_hasSource hentry hhas)
  | alone => exact .inl rfl

namespace Options

/-- The sources of one directory have one directory for their artifacts. -/
theorem home_join (o : Options) (dir : Path) {name name' : String} (h : Path.IsEntryName name)
    (h' : Path.IsEntryName name') : o.home (dir.join name) = o.home (dir.join name') := by
  rw [home, home, Path.parent_join h, Path.parent_join h']

theorem mem_fillEndings_xml_iff (o : Options) {ending : String}
    (h : ending = ".xml" ∨ ending = ".xml.tmp") : ending ∈ o.fillEndings ↔ o.xml := by
  unfold fillEndings endings
  rcases h with rfl | rfl <;> cases o.xml <;> cases o.tokens <;> decide

theorem mem_fillEndings_tokens_iff (o : Options) {ending : String}
    (h : ending = ".xml" ∨ ending = ".xml.tmp") : "T" ++ ending ∈ o.fillEndings ↔ o.tokens := by
  unfold fillEndings endings
  rcases h with rfl | rfl <;> cases o.xml <;> cases o.tokens <;> decide

/-- One ending is behind another one only if it is the tree's and the other the tokens'. -/
theorem eq_or_of_suffix {o : Options} {ending ending' : String} (h : ending ∈ o.fillEndings)
    (h' : ending' ∈ o.fillEndings) (hsuffix : ending.toList <:+ ending'.toList) :
    ending = ending' ∨ (ending = ".xml" ∨ ending = ".xml.tmp") ∧ ending' = "T" ++ ending := by
  have hall : ∀ e ∈ everything.fillEndings, ∀ e' ∈ everything.fillEndings,
      e.toList <:+ e'.toList → e = e' ∨ (e = ".xml" ∨ e = ".xml.tmp") ∧ e' = "T" ++ e := by
    decide
  exact hall ending (o.fillEndings_subset ending h) ending' (o.fillEndings_subset ending' h')
    hsuffix

variable {o : Options} {stem stem' : String}

theorem exists_append_eq_of_behind {ending ending' : String} (h : ending ∈ o.fillEndings)
    (h' : ending' ∈ o.fillEndings) (hsuffix : ending.toList <:+ ending'.toList)
    (heq : stem ++ ending = stem' ++ ending') :
    stem = stem' ∨ (o.xml ∧ o.tokens) ∧ stem = stem' ++ "T" := by
  rcases eq_or_of_suffix h h' hsuffix with rfl | ⟨hxml, rfl⟩
  · exact .inl ((String.append_left_inj _).mp heq)
  · rw [← String.append_assoc, String.append_left_inj] at heq
    have htree := (o.mem_fillEndings_xml_iff hxml).mp h
    have htokens := (o.mem_fillEndings_tokens_iff hxml).mp h'
    exact .inr ⟨⟨htree, htokens⟩, heq⟩

/-- Two stems with endings make one name only if the stems are the same, or one of them is the other
with a `T` behind it and both the tree and the tokens are asked for. -/
theorem exists_append_eq_iff (hne : stem ≠ stem') :
    (∃ ending ∈ o.fillEndings, ∃ ending' ∈ o.fillEndings, stem ++ ending = stem' ++ ending') ↔
      (o.xml ∧ o.tokens) ∧ (stem = stem' ++ "T" ∨ stem' = stem ++ "T") := by
  constructor
  · rintro ⟨ending, h, ending', h', heq⟩
    rcases suffix_or_suffix_of_append_eq heq with hsuffix | hsuffix
    · rcases exists_append_eq_of_behind h h' hsuffix heq with hsame | ⟨hasked, hstem⟩
      · exact absurd hsame hne
      · exact ⟨hasked, .inl hstem⟩
    · rcases exists_append_eq_of_behind h' h hsuffix heq.symm with hsame | ⟨hasked, hstem⟩
      · exact absurd hsame.symm hne
      · exact ⟨hasked, .inr hstem⟩
  · rintro ⟨⟨hxml, htokens⟩, hstem⟩
    have htree := (o.mem_fillEndings_xml_iff (.inl rfl)).mpr hxml
    have hlist := (o.mem_fillEndings_tokens_iff (.inl rfl)).mpr htokens
    rcases hstem with rfl | rfl
    · exact ⟨_, htree, _, hlist, by rw [String.append_assoc]⟩
    · exact ⟨_, hlist, _, htree, by rw [String.append_assoc]⟩

variable {dir source' : Path}

theorem pathWith_sourceIn (h : d.SourceIn dir source stem) (ending : String) :
    o.pathWith source ending = (o.home source).join (stem ++ ending) := by
  rw [pathWith, nameWith, h.stem, Option.getD_some]

theorem home_sourceIn (h : d.SourceIn dir source stem) (h' : d.SourceIn dir source' stem') :
    o.home source = o.home source' := by
  rw [h.eq, h'.eq]
  exact o.home_join dir h.named h'.named

theorem pathWith_eq_iff (h : d.SourceIn dir source stem) (h' : d.SourceIn dir source' stem')
    {ending ending' : String} (hending : ending ∈ o.fillEndings)
    (hending' : ending' ∈ o.fillEndings) :
    o.pathWith source ending = o.pathWith source' ending' ↔ stem ++ ending = stem' ++ ending' := by
  have hslash := (o.isEntryName_nameWith source hending).no_slash
  have hslash' := (o.isEntryName_nameWith source' hending').no_slash
  rw [nameWith, h.stem, Option.getD_some] at hslash
  rw [nameWith, h'.stem, Option.getD_some] at hslash'
  rw [pathWith_sourceIn h, pathWith_sourceIn h', home_sourceIn h h', Path.join_inj hslash hslash']

theorem fills_meet_iff (h : d.SourceIn dir source stem) (h' : d.SourceIn dir source' stem')
    (hne : stem ≠ stem') : (∃ p ∈ o.fills source, p ∈ o.fills source') ↔
      (o.xml ∧ o.tokens) ∧ (stem = stem' ++ "T" ∨ stem' = stem ++ "T") := by
  rw [← exists_append_eq_iff hne, fills_eq, fills_eq]
  constructor
  · rintro ⟨p, hp, hp'⟩
    obtain ⟨ending, hending, rfl⟩ := List.mem_map.mp hp
    obtain ⟨ending', hending', heq⟩ := List.mem_map.mp hp'
    have hnames := (pathWith_eq_iff h' h hending' hending).mp heq
    exact ⟨ending, hending, ending', hending', hnames.symm⟩
  · rintro ⟨ending, hending, ending', hending', heq⟩
    refine ⟨_, List.mem_map.mpr ⟨ending, hending, rfl⟩, List.mem_map.mpr ⟨ending', hending', ?_⟩⟩
    exact (pathWith_eq_iff h' h hending' hending).mpr heq.symm

/-- The list of tokens of the one source, and the tree of the other, are not at one path. -/
theorem not_holds_of_meet (h : d.SourceIn dir source stem) (h' : d.SourceIn dir source' stem')
    (hxml : o.xml) (htokens : o.tokens) (hstem : stem' = stem ++ "T") {text text' : String}
    (hholds : o.Holds source text d') (hholds' : o.Holds source' text' d') : False := by
  obtain ⟨tokens, -, hlist⟩ := hholds.tokens htokens
  obtain ⟨tree, -, htree⟩ := hholds'.tree hxml
  have hplace : outputPath source o.outDir "T" "xml" = outputPath source' o.outDir "" "xml" := by
    rw [outputPath_eq, outputPath_eq]
    refine (pathWith_eq_iff h h' ?_ ?_).mpr ?_
    · exact (o.mem_fillEndings_tokens_iff (.inl rfl)).mpr htokens
    · exact (o.mem_fillEndings_xml_iff (.inl rfl)).mpr hxml
    · have hending : "T" ++ "." ++ "xml" = "T" ++ ("" ++ "." ++ "xml") := rfl
      rw [hstem, hending]
      exact String.append_assoc.symm
  rw [hplace, htree, Except.ok.injEq] at hlist
  have htexts : tree.markup.text = (Source.tokensMarkup tokens).text :=
    String.toByteArray_inj.mp hlist
  have htag := Element.tag_eq_of_text (by decide) (by decide) htexts
  exact absurd htag (by decide)

end Options

/-- Two sources of one build have a path in common that is filled for both exactly if the tree and
the tokens are asked for and one stem is the other with a `T` behind it; and then no disk holds the
artifacts of both. -/
theorem sources_meet_iff (o : Options) (hnamed : d.WellNamed)
    (hcollect : (collectSources input).run d = (.ok sources, d')) {source source' : Path}
    (hmem : source ∈ sources) (hmem' : source' ∈ sources) (hne : source ≠ source') :
    ((∃ p ∈ o.fills source, p ∈ o.fills source') ↔ (o.xml ∧ o.tokens) ∧ ∃ stem,
      (source.stem = some (stem ++ "T") ∧ source'.stem = some stem) ∨
        (source'.stem = some (stem ++ "T") ∧ source.stem = some stem)) ∧
    ((∃ p ∈ o.fills source, p ∈ o.fills source') → ∀ text text' e,
      ¬(o.Holds source text e ∧ o.Holds source' text' e)) := by
  obtain ⟨-, hnames⟩ := names_of_collectSources hcollect
  have hmany (p : Path) : sources ≠ [p] := by
    rintro rfl
    exact hne ((List.mem_singleton.mp hmem).trans (List.mem_singleton.mp hmem').symm)
  obtain ⟨stem, h⟩ := (hnames.sourceIn hnamed hmem).resolve_left (hmany input)
  obtain ⟨stem', h'⟩ := (hnames.sourceIn hnamed hmem').resolve_left (hmany input)
  have hstems : stem ≠ stem' := by
    rintro rfl
    exact hne (h.eq.trans h'.eq.symm)
  rw [Options.fills_meet_iff h h' hstems, h.stem, h'.stem]
  refine ⟨and_congr_right fun _ => ⟨?_, ?_⟩, ?_⟩
  · rintro (rfl | rfl)
    · exact ⟨stem', .inl ⟨rfl, rfl⟩⟩
    · exact ⟨stem, .inr ⟨rfl, rfl⟩⟩
  · rintro ⟨short, ⟨hlong, hshort⟩ | ⟨hlong, hshort⟩⟩
    · exact .inl ((Option.some.inj hlong).trans (Option.some.inj hshort ▸ rfl))
    · exact .inr ((Option.some.inj hlong).trans (Option.some.inj hshort ▸ rfl))
  · rintro ⟨⟨hxml, htokens⟩, hstem | hstem⟩ text text' e ⟨hholds, hholds'⟩
    · exact Options.not_holds_of_meet h' h hxml htokens hstem hholds' hholds
    · exact Options.not_holds_of_meet h h' hxml htokens hstem hholds hholds'

/-! Two classes of which the one has the other's name with a `T` behind it. -/

section

open Options

def clashing : Disk where
  entries := [(["AT.jack"], .file "class AT {}".toUTF8), (["A.jack"], .file "class A {}".toUTF8)]
  here := []

theorem collectSources_clashing :
    (collectSources ⟨"."⟩).run clashing = (.ok [⟨"./A.jack"⟩, ⟨"./AT.jack"⟩], clashing) := by
  have hstatus : clashing.status ⟨"."⟩ = .directory := by decide +kernel
  have hlist : clashing.list ⟨"."⟩ = .ok ["AT.jack", "A.jack"] := rfl
  have hsorted : (["AT.jack", "A.jack"].mergeSort fun a b => decide (a ≤ b)) =
      ["A.jack", "AT.jack"] := by
    simp [List.mergeSort, List.MergeSort.Internal.splitInTwo]
  have hkept : (["A.jack", "AT.jack"].map (Path.join ⟨"."⟩)).filter clashing.hasSource =
      [⟨"./A.jack"⟩, ⟨"./AT.jack"⟩] := by decide +kernel
  rw [run_collectSources, if_pos hstatus, hlist]
  dsimp only
  rw [hsorted, hkept]

/-- Both of them have the path `./AT.xml`. -/
theorem sources_meet_clashing :
    (collectSources ⟨"."⟩).run clashing = (.ok [⟨"./A.jack"⟩, ⟨"./AT.jack"⟩], clashing) ∧
      ⟨"./AT.xml"⟩ ∈ everything.fills ⟨"./A.jack"⟩ ∧
      ⟨"./AT.xml"⟩ ∈ everything.fills ⟨"./AT.jack"⟩ :=
  ⟨collectSources_clashing, by decide +kernel, by decide +kernel⟩

theorem sources_meet_iff_clashing :
    ((∃ p ∈ everything.fills ⟨"./A.jack"⟩, p ∈ everything.fills ⟨"./AT.jack"⟩) ↔
      (everything.xml ∧ everything.tokens) ∧ ∃ stem,
        (Path.stem ⟨"./A.jack"⟩ = some (stem ++ "T") ∧ Path.stem ⟨"./AT.jack"⟩ = some stem) ∨
          (Path.stem ⟨"./AT.jack"⟩ = some (stem ++ "T") ∧ Path.stem ⟨"./A.jack"⟩ = some stem)) ∧
    ((∃ p ∈ everything.fills ⟨"./A.jack"⟩, p ∈ everything.fills ⟨"./AT.jack"⟩) →
      ∀ text text' e, ¬(everything.Holds ⟨"./A.jack"⟩ text e ∧
        everything.Holds ⟨"./AT.jack"⟩ text' e)) :=
  sources_meet_iff everything (by decide +kernel) collectSources_clashing (by simp) (by simp)
    (by decide)

end

end Jack
