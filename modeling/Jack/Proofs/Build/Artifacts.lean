import Jack.Proofs.Build.Install

/-! Compiling one source, as a whole. The names of its artifacts, and of what is staged for them,
have the stem of the source in common and differ in their endings, so they are all different. A
source that compiles has all its artifacts on disk, and nothing staged; one that does not has added
nothing to the disk, and taken away at most what was at paths that it fills. -/

namespace Jack

open Disk Installation

namespace Options

variable (o : Options) (source : Path)

/-- The directory for the artifacts. -/
def home : Path := o.outDir.getD (source.parent.getD ⟨""⟩)

/-- The paths of the artifacts that are asked for. -/
def outputs : List Path :=
  [outputPath source o.outDir "" "vm"] ++
    (if o.xml then [outputPath source o.outDir "" "xml"] else []) ++
    (if o.tokens then [outputPath source o.outDir "T" "xml"] else [])

/-- The paths that are filled on the way. -/
def fills : List Path := o.outputs source ++ (o.outputs source).map stagingPath

/-- What the names of the artifacts have behind the stem of the source. -/
def endings : List String :=
  [".vm"] ++ (if o.xml then [".xml"] else []) ++ (if o.tokens then ["T.xml"] else [])

/-- The same for all the paths that are filled. -/
def fillEndings : List String := o.endings ++ o.endings.map (· ++ ".tmp")

/-- The name with an ending in place of the extension. -/
def nameWith (ending : String) : String := source.stem.getD "" ++ ending

def pathWith (ending : String) : Path := (o.home source).join (nameWith source ending)

theorem nodup_fillEndings : o.fillEndings.Nodup := by
  unfold fillEndings endings
  cases o.xml <;> cases o.tokens <;> decide

/-- All artifacts are asked for. -/
def everything : Options := ⟨true, true, none⟩

theorem endings_subset : ∀ ending ∈ o.endings, ending ∈ everything.endings := by
  unfold endings
  cases o.xml <;> cases o.tokens <;> decide

theorem fillEndings_subset : ∀ ending ∈ o.fillEndings, ending ∈ everything.fillEndings := by
  unfold fillEndings endings
  cases o.xml <;> cases o.tokens <;> decide

theorem no_slash_of_mem_fillEndings {ending : String} (h : ending ∈ o.fillEndings) :
    '/' ∉ ending.toList := by
  have hall : ∀ e ∈ everything.fillEndings, '/' ∉ e.toList := by decide
  exact hall ending (o.fillEndings_subset ending h)

theorem isEntryName_nameWith {ending : String} (h : ending ∈ o.fillEndings) :
    Path.IsEntryName (nameWith source ending) := by
  have hlong : ∀ e ∈ everything.fillEndings, 2 < e.length := by decide
  have hlength : 2 < (nameWith source ending).length := by
    have := hlong ending (o.fillEndings_subset ending h)
    rw [nameWith, String.length_append]
    omega
  have hne (other : String) (hshort : other.length ≤ 2) : nameWith source ending ≠ other := by
    rintro rfl
    omega
  refine ⟨hne "" (by decide), hne "." (by decide), hne ".." (by decide), ?_⟩
  rw [nameWith, String.toList_append, List.mem_append, not_or]
  exact ⟨source.no_slash_of_stem, o.no_slash_of_mem_fillEndings h⟩

theorem mem_fillEndings_of_mem_endings {ending : String} (h : ending ∈ o.endings) :
    ending ∈ o.fillEndings ∧ ending ++ ".tmp" ∈ o.fillEndings :=
  ⟨List.mem_append_left _ h, List.mem_append_right _ (List.mem_map.mpr ⟨ending, h, rfl⟩)⟩

theorem outputPath_eq (suffix extension : String) :
    outputPath source o.outDir suffix extension =
      o.pathWith source (suffix ++ "." ++ extension) := by
  rw [outputPath, pathWith, home, nameWith, String.append_assoc, String.append_assoc,
    String.append_assoc]

theorem outputs_eq : o.outputs source = o.endings.map (o.pathWith source) := by
  unfold outputs endings
  rw [outputPath_eq, outputPath_eq, outputPath_eq]
  cases o.xml <;> cases o.tokens <;> rfl

theorem stagingPath_pathWith {ending : String} (h : ending ∈ o.endings) :
    stagingPath (o.pathWith source ending) = o.pathWith source (ending ++ ".tmp") := by
  obtain ⟨hplace, hstaging⟩ := o.mem_fillEndings_of_mem_endings h
  have hname := (o.isEntryName_nameWith source hplace).no_slash
  have hname' := (o.isEntryName_nameWith source hstaging).no_slash
  rw [stagingPath, pathWith, pathWith, Path.join_eq _ hname, Path.join_eq _ hname', nameWith,
    nameWith, String.append_assoc, String.append_assoc]

theorem fills_eq : o.fills source = o.fillEndings.map (o.pathWith source) := by
  have hstaging : (o.outputs source).map stagingPath =
      (o.endings.map (· ++ ".tmp")).map (o.pathWith source) := by
    rw [outputs_eq, List.map_map, List.map_map, List.map_inj_left]
    intro ending h
    rw [Function.comp_apply, Function.comp_apply, o.stagingPath_pathWith source h]
  rw [fills, hstaging, outputs_eq, fillEndings, List.map_append]

/-- The place in a directory that a path means by its file name. -/
def spotIn (dir : Location) (p : Path) : Location :=
  dir ++ [String.ofList (p.fileName.getD [])]

variable {o source} {d : Disk} {dir : Location}

theorem spotIn_pathWith (dir : Location) {ending : String} (h : ending ∈ o.fillEndings) :
    spotIn dir (o.pathWith source ending) = dir ++ [nameWith source ending] := by
  rw [spotIn, pathWith, Path.fileName_join (o.isEntryName_nameWith source h), Option.getD_some,
    String.ofList_toList]

theorem resolve_pathWith {ending : String} (h : ending ∈ o.fillEndings) :
    d.resolve (o.pathWith source ending) =
      (d.enter (o.home source)).map (· ++ [nameWith source ending]) :=
  resolve_join d _ (o.isEntryName_nameWith source h)

/-- All that is filled is in the directory for the artifacts. -/
theorem resolve_fill (hdir : d.enter (o.home source) = .ok dir) {p : Path}
    (hp : p ∈ o.fills source) : d.resolve p = .ok (spotIn dir p) := by
  rw [fills_eq] at hp
  obtain ⟨ending, hending, rfl⟩ := List.mem_map.mp hp
  rw [resolve_pathWith hending, hdir, spotIn_pathWith dir hending]
  rfl

/-- If there is no such directory, nothing can be filled. -/
theorem resolve_fill_error {fault : Fault} (hdir : d.enter (o.home source) = .error fault)
    {p : Path} (hp : p ∈ o.fills source) : d.resolve p = .error fault := by
  rw [fills_eq] at hp
  obtain ⟨ending, hending, rfl⟩ := List.mem_map.mp hp
  rw [resolve_pathWith hending, hdir]
  rfl

theorem nodup_spots (dir : Location) : ((o.fills source).map (spotIn dir)).Nodup := by
  rw [fills_eq, List.map_map, List.Nodup, List.pairwise_map]
  refine o.nodup_fillEndings.imp_of_mem fun {ending ending'} h h' hne heq => hne ?_
  rw [Function.comp_apply, Function.comp_apply, spotIn_pathWith dir h, spotIn_pathWith dir h',
    List.append_cancel_left_eq, List.singleton_inj] at heq
  exact (String.append_right_inj _).mp heq

end Options

/-! What the source holds, and what is made of it. -/

/-- The text of a file, or why there is none. -/
def Disk.readText (d : Disk) (p : Path) : Except Fault String :=
  match d.read p with
  | .error fault => .error fault
  | .ok content =>
    match String.fromUTF8? content with
    | none => .error .notText
    | some text => .ok text

theorem run_readSource (source : Path) (d : Disk) :
    (readSource source).run d = ((d.readText source).mapError (.reading source), d) := by
  have hread : (Script.request (.read source)).run d = (d.read source, d) := rfl
  rw [readSource, Script.run_bind, hread, readText]
  cases d.read source with
  | error fault => rfl
  | ok content =>
    dsimp only
    cases String.fromUTF8? content <;> rfl

namespace Options

/-- The artifacts that are asked for. -/
def artifactsOf (o : Options) (source : Path) (tokens : List Located) (tree : Class)
    (program : Program) : List Artifact :=
  [⟨outputPath source o.outDir "" "vm", program.text.toUTF8⟩] ++
    (if o.xml then [⟨outputPath source o.outDir "" "xml", tree.markup.text.toUTF8⟩] else []) ++
    (if o.tokens then
      [⟨outputPath source o.outDir "T" "xml", (Source.tokensMarkup tokens).text.toUTF8⟩]
    else [])

theorem map_place_artifactsOf (o : Options) (source : Path) (tokens : List Located) (tree : Class)
    (program : Program) :
    (o.artifactsOf source tokens tree program).map (·.place) = o.outputs source := by
  unfold artifactsOf outputs
  cases o.xml <;> cases o.tokens <;> simp

/-- The artifacts that are asked for are on disk, and nothing is staged. -/
structure Holds (o : Options) (source : Path) (text : String) (d : Disk) : Prop where
  program : ∃ program, Source.compile text = .ok program ∧
    d.read (outputPath source o.outDir "" "vm") = .ok program.text.toUTF8
  tree : o.xml → ∃ tree, Source.parse text = .ok tree ∧
    d.read (outputPath source o.outDir "" "xml") = .ok tree.markup.text.toUTF8
  tokens : o.tokens → ∃ tokens, Source.tokens text = .ok tokens ∧
    d.read (outputPath source o.outDir "T" "xml") = .ok (Source.tokensMarkup tokens).text.toUTF8
  unstaged : ∀ p ∈ o.outputs source, d.status (stagingPath p) = .absent

/-- Why a source does not come to its artifacts. -/
def FailsBy (o : Options) (source : Path) (d d' : Disk) : BuildError → Prop
  | .reading p fault => p = source ∧ d.readText source = .error fault ∧ d' = d
  | .compiling p e => p = source ∧
    (∃ text, d.readText source = .ok text ∧ Source.compile text = .error e) ∧ d' = d
  | .writing p fault => p ∈ o.fills source ∧
    (∃ text program, d.readText source = .ok text ∧ Source.compile text = .ok program) ∧
      ∀ content, d.write p content = .error fault
  | _ => False

/-- The places to which no path leads that is filled. -/
def elsewhere (o : Options) (source : Path) (d : Disk) : Set Location :=
  {l | ∀ p ∈ o.fills source, d.resolve p ≠ .ok l}

end Options

section

variable {o : Options} {source : Path} {d d' : Disk} {text : String}

/-- Making artifacts goes through the same stages as compiling. -/
theorem artifacts_cases (o : Options) (source : Path) (text : String) :
    (∃ e, Source.compile text = .error e ∧ artifacts o source text = .error e) ∨
      ∃ tokens tree program, Source.tokens text = .ok tokens ∧ Source.parse text = .ok tree ∧
        Source.compile text = .ok program ∧
        artifacts o source text = .ok (o.artifactsOf source tokens tree program) := by
  have hmade : artifacts o source text = do
      let tokens ← Source.tokens text
      let tree ← Class.ofTokens tokens
      let program ← tree.code
      return o.artifactsOf source tokens tree program := rfl
  rw [hmade, Source.compile, Source.parse]
  cases Source.tokens text with
  | error e => exact .inl ⟨e, rfl, rfl⟩
  | ok tokens =>
    simp only [bind, Except.bind]
    cases Class.ofTokens tokens with
    | error e => exact .inl ⟨e, rfl, rfl⟩
    | ok tree =>
      dsimp only
      cases tree.code with
      | error e => exact .inl ⟨e, rfl, rfl⟩
      | ok program => exact .inr ⟨tokens, tree, program, rfl, rfl, rfl, rfl⟩

/-- A source is not read, or does not compile, or all that is left is to install its artifacts. -/
theorem run_compileFile (o : Options) (source : Path) (d : Disk) :
    (∃ fault, d.readText source = .error fault ∧
      (compileFile o source).run d = (.error (.reading source fault), d)) ∨
    (∃ text e, d.readText source = .ok text ∧ Source.compile text = .error e ∧
      (compileFile o source).run d = (.error (.compiling source e), d)) ∨
    ∃ text tokens tree program result d',
      d.readText source = .ok text ∧ Source.tokens text = .ok tokens ∧
      Source.parse text = .ok tree ∧ Source.compile text = .ok program ∧
      (install (o.artifactsOf source tokens tree program)).run d = (result, d') ∧
      (compileFile o source).run d =
        (result.map fun _ => outputPath source o.outDir "" "vm", d') := by
  rw [compileFile, Script.run_bind, run_readSource]
  cases hread : d.readText source with
  | error fault => exact .inl ⟨fault, rfl, rfl⟩
  | ok text =>
    dsimp only [Except.mapError]
    obtain ⟨e, hcompile, hmade⟩ | ⟨tokens, tree, program, htokens, htree, hcompile, hmade⟩ :=
      artifacts_cases o source text <;> rw [hmade]
    · exact .inr (.inl ⟨text, e, rfl, hcompile, rfl⟩)
    · cases hinstall : (install (o.artifactsOf source tokens tree program)).run d with
      | mk result d' =>
        refine .inr (.inr ⟨text, tokens, tree, program, result, d', rfl, htokens, htree, hcompile,
          hinstall, ?_⟩)
        dsimp only
        rw [Script.run_bind, hinstall]
        cases result <;> rfl

end

/-! Where the artifacts of a source are installed. -/

namespace Options

variable {o : Options} {source : Path} {d d' : Disk} {dir : Location} {made : List Artifact}

theorem map_fills (hmade : made.map (·.place) = o.outputs source) : o.fills source =
    made.map (·.place) ++ made.map fun a => stagingPath a.place := by
  rw [fills, ← hmade, List.map_map]
  rfl

theorem havePlaces (hdir : d.enter (o.home source) = .ok dir)
    (hmade : made.map (·.place) = o.outputs source) : HavePlaces d (spotIn dir) made := by
  have hfills := map_fills hmade
  have hplace : ∀ a ∈ made, a.place ∈ o.fills source := fun a ha => by
    rw [hfills]
    exact List.mem_append_left _ (List.mem_map.mpr ⟨a, ha, rfl⟩)
  have hstaging : ∀ a ∈ made, stagingPath a.place ∈ o.fills source := fun a ha => by
    rw [hfills]
    exact List.mem_append_right _ (List.mem_map.mpr ⟨a, ha, rfl⟩)
  have hnodup : ((o.fills source).map (spotIn dir)).Nodup := nodup_spots dir
  rw [hfills, List.map_append, List.nodup_append, List.map_map, List.map_map] at hnodup
  obtain ⟨hplaces, hstagings, hapart⟩ := hnodup
  refine ⟨fun a ha => resolve_fill hdir (hplace a ha),
    fun a ha => resolve_fill hdir (hstaging a ha), ?_, fun a ha b hb => ?_⟩
  · exact (List.pairwise_map.mp hplaces).and (List.pairwise_map.mp hstagings)
  · exact hapart _ (List.mem_map.mpr ⟨a, ha, rfl⟩) _ (List.mem_map.mpr ⟨b, hb, rfl⟩)

/-- The places that are filled, if there is a directory for them. -/
def filled (o : Options) (source : Path) (dir : Location) : Set Location :=
  {l | ∃ p ∈ o.fills source, spotIn dir p = l}

theorem elsewhere_eq (hdir : d.enter (o.home source) = .ok dir) :
    o.elsewhere source d = (o.filled source dir)ᶜ := by
  ext l
  constructor
  · rintro hl ⟨p, hp, rfl⟩
    exact hl p hp (resolve_fill hdir hp)
  · intro hl p hp heq
    rw [resolve_fill hdir hp] at heq
    exact hl ⟨p, hp, Except.ok.inj heq⟩

theorem install_within (hdir : d.enter (o.home source) = .ok dir)
    (hmade : made.map (·.place) = o.outputs source) :
    (install made).Within d (o.filled source dir) (o.filled source dir) := by
  refine within_install ?_
  rw [← map_fills hmade]
  exact fun p hp => ⟨_, ⟨p, hp, rfl⟩, resolve_fill hdir hp⟩

/-- Without a directory for them, the first artifact is not even staged. -/
theorem run_install_of_enter_error {fault : Fault}
    (hdir : d.enter (o.home source) = .error fault)
    (hmade : made.map (·.place) = o.outputs source) :
    ∃ p ∈ o.fills source,
      (install made).run d = (.error (.writing p fault), d) ∧
        ∀ content, d.write p content = .error fault := by
  have hwrite : ∀ p ∈ o.fills source, ∀ content, d.write p content = .error fault := by
    intro p hp content
    rw [write, resolve_fill_error hdir hp]
    rfl
  cases made with
  | nil => simp [outputs] at hmade
  | cons a made =>
    have hp : stagingPath a.place ∈ o.fills source := by
      rw [map_fills hmade]
      simp
    refine ⟨_, hp, ?_, hwrite _ hp⟩
    rw [install, List.map_cons, List.cons_append, run_runSteps_cons, effect, hwrite _ hp]
    rfl

theorem agreeOn_install (hmade : made.map (·.place) = o.outputs source) :
    d.AgreeOn (o.elsewhere source d) ((install made).run d).2 := by
  cases hdir : d.enter (o.home source) with
  | error fault =>
    obtain ⟨p, -, hrun, -⟩ := run_install_of_enter_error hdir hmade
    rw [hrun]
    exact .refl _ d
  | ok dir =>
    rw [elsewhere_eq hdir]
    exact (install_within hdir hmade).run_frame (.refl _ d)

theorem install_cases (hmade : made.map (·.place) = o.outputs source) :
    (∃ p ∈ o.fills source, ∃ fault, ((install made).run d).1 = .error (.writing p fault) ∧
      ∀ content, d.write p content = .error fault) ∨
    ∃ d', (install made).run d = (.ok (), d') ∧ ∀ a ∈ made, d'.read a.place = .ok a.content ∧
      d'.status (stagingPath a.place) = .absent := by
  cases hdir : d.enter (o.home source) with
  | error fault =>
    obtain ⟨p, hp, hrun, hwrite⟩ := run_install_of_enter_error hdir hmade
    exact .inl ⟨p, hp, fault, by rw [hrun], hwrite⟩
  | ok dir =>
    have hspots := havePlaces hdir hmade
    rcases run_install hspots with ⟨p, hp, hentry, herror⟩ | ⟨d', hrun, hget⟩
    · rw [← map_fills hmade] at hp
      refine .inl ⟨p, hp, .isDirectory, herror, fun content => ?_⟩
      rw [write_eq (resolve_fill hdir hp), hentry]
    · have hagree := agreeOn_install (d := d) hmade
      rw [hrun] at hagree
      refine .inr ⟨d', hrun, fun a ha => ?_⟩
      obtain ⟨hplaced, hunstaged⟩ := hget a ha
      rw [read_eq (hagree.resolve.mp (hspots.place a ha)), hplaced,
        status_eq (hagree.resolve.mp (hspots.staging a ha)), hunstaged]
      exact ⟨rfl, rfl⟩

/-- What installed artifacts have in them. -/
theorem holds_of_read {text : String} {tokens : List Located} {tree : Class} {program : Program}
    (htokens : Source.tokens text = .ok tokens) (htree : Source.parse text = .ok tree)
    (hprogram : Source.compile text = .ok program)
    (h : ∀ a ∈ o.artifactsOf source tokens tree program,
      d.read a.place = .ok a.content ∧ d.status (stagingPath a.place) = .absent) :
    o.Holds source text d := by
  have hread (place : Path) (content : ByteArray)
      (hmem : ⟨place, content⟩ ∈ o.artifactsOf source tokens tree program) :
      d.read place = .ok content := (h _ hmem).1
  refine ⟨⟨program, hprogram, hread _ _ ?_⟩, fun hxml => ⟨tree, htree, hread _ _ ?_⟩,
    fun hasked => ⟨tokens, htokens, hread _ _ ?_⟩, fun p hp => ?_⟩
  · simp [artifactsOf]
  · simp [artifactsOf, hxml]
  · simp [artifactsOf, hasked]
  · rw [← o.map_place_artifactsOf source tokens tree program] at hp
    obtain ⟨a, ha, rfl⟩ := List.mem_map.mp hp
    exact (h a ha).2

end Options

section

open Options

variable {o : Options} {source : Path} {d d' : Disk}

theorem agreeOn_compileFile (o : Options) (source : Path) (d : Disk) :
    d.AgreeOn (o.elsewhere source d) ((compileFile o source).run d).2 := by
  rcases run_compileFile o source d with ⟨fault, -, hrun⟩ | ⟨text, e, -, -, hrun⟩ |
    ⟨text, tokens, tree, program, result, d', -, -, -, -, hinstall, hrun⟩ <;> rw [hrun]
  · exact .refl _ d
  · exact .refl _ d
  · have hframe := agreeOn_install (d := d) (o.map_place_artifactsOf source tokens tree program)
    rw [hinstall] at hframe
    exact hframe

theorem holds_of_compileFile {place : Path}
    (h : (compileFile o source).run d = (.ok place, d')) :
    place = outputPath source o.outDir "" "vm" ∧
      ∃ text, d.readText source = .ok text ∧ o.Holds source text d' := by
  rcases run_compileFile o source d with ⟨fault, -, hrun⟩ | ⟨text, e, -, -, hrun⟩ |
    ⟨text, tokens, tree, program, result, d₁, hread, htokens, htree, hprogram, hinstall, hrun⟩ <;>
    obtain ⟨hresult, rfl⟩ := Prod.mk.inj (hrun.symm.trans h)
  · cases hresult
  · cases hresult
  · rcases install_cases (d := d) (o.map_place_artifactsOf source tokens tree program) with
      ⟨p, -, fault, herror, -⟩ | ⟨d₂, hdone, hget⟩
    · rw [hinstall] at herror
      obtain rfl : result = .error _ := herror
      cases hresult
    · obtain ⟨rfl, rfl⟩ := Prod.mk.inj (hinstall.symm.trans hdone)
      have hholds := holds_of_read htokens htree hprogram hget
      exact ⟨(Except.ok.inj hresult).symm, text, hread, hholds⟩

theorem failsBy_of_compileFile {e : BuildError}
    (h : (compileFile o source).run d = (.error e, d')) :
    d.LosesTo d' ∧ o.FailsBy source d d' e := by
  rcases run_compileFile o source d with ⟨fault, hread, hrun⟩ | ⟨text, e, hread, hcompile, hrun⟩ |
    ⟨text, tokens, tree, program, result, d₁, hread, -, -, hprogram, hinstall, hrun⟩ <;>
    obtain ⟨hresult, rfl⟩ := Prod.mk.inj (hrun.symm.trans h)
  · obtain rfl := Except.error.inj hresult
    exact ⟨.refl d, rfl, hread, rfl⟩
  · obtain rfl := Except.error.inj hresult
    exact ⟨.refl d, rfl, ⟨text, hread, hcompile⟩, rfl⟩
  · rcases install_cases (d := d) (o.map_place_artifactsOf source tokens tree program) with
      ⟨p, hp, fault, herror, hwrite⟩ | ⟨d₂, hdone, -⟩
    · rw [hinstall] at herror
      obtain rfl : result = .error _ := herror
      obtain rfl := Except.error.inj hresult
      exact ⟨losesTo_of_install_error hinstall, hp, ⟨text, program, hread, hprogram⟩, hwrite⟩
    · obtain ⟨rfl, -⟩ := Prod.mk.inj (hinstall.symm.trans hdone)
      cases hresult

/-- Compiling a source sees the source and what is filled for it, and changes only the latter. -/
theorem within_compileFile {sees changes : Set Location} {dir l : Location}
    (hdir : d.enter (o.home source) = .ok dir) (hl : d.resolve source = .ok l) (hmem : l ∈ sees)
    (hfilled : o.filled source dir ⊆ changes) (hsub : changes ⊆ sees) :
    (compileFile o source).Within d sees changes := by
  have hread : (readSource source).Within d sees changes := by
    refine .bind (.request ⟨l, hmem, hl⟩) fun reply => ?_
    cases reply with
    | error fault => trivial
    | ok content =>
      dsimp only
      split <;> trivial
  refine .bind hread fun result => ?_
  cases result with
  | error e => trivial
  | ok text =>
    dsimp only
    obtain ⟨e, -, hmade⟩ | ⟨tokens, tree, program, -, -, -, hmade⟩ :=
      artifacts_cases o source text <;> rw [hmade]
    · trivial
    · have hinstall := install_within hdir (o.map_place_artifactsOf source tokens tree program)
      refine .bind (hinstall.mono (hfilled.trans hsub) hfilled) fun done => ?_
      cases done <;> trivial

/-- Compiling a source puts all its artifacts on disk, and clears away what was staged; or it adds
nothing to the disk. -/
theorem compileFile_all_or_nothing (o : Options) (source : Path) (d : Disk) :
    match (compileFile o source).run d with
    | (.ok program, d') =>
      program = outputPath source o.outDir "" "vm" ∧
        (∃ text, d.readText source = .ok text ∧ o.Holds source text d') ∧
          d.AgreeOn (o.elsewhere source d) d'
    | (.error e, d') =>
      (d.LosesTo d' ∧ o.FailsBy source d d' e) ∧ d.AgreeOn (o.elsewhere source d) d' := by
  have hframe := agreeOn_compileFile o source d
  cases hrun : (compileFile o source).run d with
  | mk result d' =>
    rw [hrun] at hframe
    cases result with
    | ok program =>
      obtain ⟨hprogram, hholds⟩ := holds_of_compileFile hrun
      exact ⟨hprogram, hholds, hframe⟩
    | error e => exact ⟨failsBy_of_compileFile hrun, hframe⟩

end

end Jack
