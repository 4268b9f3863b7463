import Mathlib.Data.Set.Basic
import Jack.Disk.Basic
import Jack.Proofs.Path

/-! Where paths lead on a disk. Only directories decide it, so no operation on files changes it, and
two disks with the same directories can differ no more than at the places of files. -/

namespace Jack.Disk

/-- The directory that a path leads to, through directories that all its pieces name. -/
def enter (d : Disk) (dir : Path) : Except Fault Location :=
  d.walk (if dir.isAbsolute then [] else d.here) dir.pieces

variable {d d' d'' : Disk}

theorem walk_append (d : Disk) (start : Location) (front back : List String) :
    d.walk start (front ++ back) = d.walk start front >>= fun l => d.walk l back := by
  induction front generalizing start with
  | nil => rfl
  | cons piece rest ih =>
    rw [List.cons_append, walk, walk]
    split
    · exact ih start
    split
    · exact ih start.dropLast
    split
    · exact ih _
    · rfl
    · rfl

theorem walk_blanks (d : Disk) (start : Location) {blanks : List String}
    (h : ∀ piece ∈ blanks, piece = "" ∨ piece = ".") : d.walk start blanks = .ok start := by
  induction blanks with
  | nil => rfl
  | cons piece rest ih =>
    rw [List.forall_mem_cons] at h
    rw [walk, if_pos h.1, ih h.2]

/-- The name of an entry leads into the directory from which it is seen. -/
theorem resolve_join (d : Disk) (dir : Path) {name : String} (h : Path.IsEntryName name) :
    d.resolve (dir.join name) = (d.enter dir).map (· ++ [name]) := by
  obtain ⟨front, blanks, hpieces, hdir, hblanks⟩ := dir.pieces_join h.no_slash
  have htext : (dir.join name).text ≠ "" := by
    rw [Path.join_eq dir h.no_slash]
    simp [h.nonempty]
  have henter : d.enter dir = d.walk (if dir.isAbsolute then [] else d.here) front := by
    rw [enter, hdir, walk_append]
    cases d.walk (if dir.isAbsolute then [] else d.here) front with
    | error fault => rfl
    | ok l => exact walk_blanks d l fun piece hpiece => .inl (hblanks piece hpiece)
  have hstep (l : Location) : step l name = l ++ [name] := by
    rw [step, if_neg (not_or.mpr ⟨h.nonempty, h.ne_dot⟩), if_neg h.ne_dots]
  rw [resolve, if_neg htext, Path.isAbsolute_join dir h.no_slash, hpieces, List.dropLast_concat,
    List.getLast?_concat, henter]
  cases d.walk (if dir.isAbsolute then [] else d.here) front with
  | error fault => rfl
  | ok l => exact congrArg Except.ok (hstep l)

theorem walk_names (d : Disk) (start : Location) (pieces : List String) :
    d.walk start (pieces.filter fun piece => piece ≠ "" ∧ piece ≠ ".") = d.walk start pieces := by
  induction pieces generalizing start with
  | nil => rfl
  | cons piece rest ih =>
    by_cases hblank : piece = "" ∨ piece = "."
    · have hnot : ¬(piece ≠ "" ∧ piece ≠ ".") := fun h => hblank.elim h.1 h.2
      rw [List.filter_cons_of_neg (by simpa using hnot), ih, walk, if_pos hblank]
    · rw [List.filter_cons_of_pos (by simpa using not_or.mp hblank), walk, walk, if_neg hblank,
        if_neg hblank]
      simp only [ih]

/-- The directory from which the name of an entry is seen is where its parent leads. -/
theorem enter_parent (d : Disk) {dir q : Path} {name : String} (h : Path.IsEntryName name)
    (hq : (dir.join name).parent = some q) : d.enter q = d.enter dir := by
  obtain ⟨hnames, habsolute⟩ := Path.names_parent_join h hq
  rw [enter, enter, ← walk_names, ← walk_names d _ dir.pieces, habsolute]
  exact congrArg _ hnames

/-! Disks with the same directories. -/

/-- The disks have the same directories, and the same entries at the given places. -/
structure AgreeOn (places : Set Location) (d d' : Disk) : Prop where
  here : d.here = d'.here
  directory : ∀ l, d.get? l = some .directory ↔ d'.get? l = some .directory
  entry : ∀ l ∈ places, d.get? l = d'.get? l

namespace AgreeOn

variable {places places' : Set Location}

theorem refl (places : Set Location) (d : Disk) : d.AgreeOn places d :=
  ⟨rfl, fun _ => Iff.rfl, fun _ _ => rfl⟩

theorem symm (h : d.AgreeOn places d') : d'.AgreeOn places d :=
  ⟨h.here.symm, fun l => (h.directory l).symm, fun l hl => (h.entry l hl).symm⟩

theorem trans (h : d.AgreeOn places d') (h' : d'.AgreeOn places d'') : d.AgreeOn places d'' :=
  ⟨h.here.trans h'.here, fun l => (h.directory l).trans (h'.directory l),
    fun l hl => (h.entry l hl).trans (h'.entry l hl)⟩

theorem mono (h : d.AgreeOn places d') (hsub : places' ⊆ places) : d.AgreeOn places' d' :=
  ⟨h.here, h.directory, fun l hl => h.entry l (hsub hl)⟩

end AgreeOn

/-- Directories that are added close no way. -/
theorem walk_of_directories (h : ∀ l, d.get? l = some .directory → d'.get? l = some .directory)
    {start l : Location} {pieces : List String} (hwalk : d.walk start pieces = .ok l) :
    d'.walk start pieces = .ok l := by
  induction pieces generalizing start with
  | nil => exact hwalk
  | cons piece rest ih =>
    rw [walk] at hwalk ⊢
    split
    · next hblank =>
      rw [if_pos hblank] at hwalk
      exact ih hwalk
    next hblank =>
    rw [if_neg hblank] at hwalk
    split
    · next hup =>
      rw [if_pos hup] at hwalk
      exact ih hwalk
    next hup =>
    rw [if_neg hup] at hwalk
    split at hwalk
    · next hentry =>
      rw [h _ hentry]
      exact ih hwalk
    · cases hwalk
    · cases hwalk

/-- A path leads somewhere exactly if all but its last piece lead to a directory. -/
theorem resolve_eq_ok_iff {p : Path} {l : Location} : d.resolve p = .ok l ↔ p.text ≠ "" ∧
    ∃ dir, d.walk (if p.isAbsolute then [] else d.here) p.pieces.dropLast = .ok dir ∧
      step dir (p.pieces.getLast?.getD "") = l := by
  unfold resolve
  by_cases htext : p.text = ""
  · rw [if_pos htext]
    exact ⟨nofun, fun h => absurd htext h.1⟩
  rw [if_neg htext]
  cases d.walk (if p.isAbsolute then [] else d.here) p.pieces.dropLast with
  | error fault => exact ⟨nofun, fun ⟨_, _, hwalk, _⟩ => nomatch hwalk⟩
  | ok dir =>
    constructor
    · intro h
      exact ⟨htext, dir, rfl, Except.ok.inj h⟩
    · rintro ⟨-, dir', hdir, rfl⟩
      obtain rfl := Except.ok.inj hdir
      rfl

theorem resolve_of_directories (here : d.here = d'.here)
    (h : ∀ l, d.get? l = some .directory → d'.get? l = some .directory) {p : Path} {l : Location}
    (hp : d.resolve p = .ok l) : d'.resolve p = .ok l := by
  obtain ⟨htext, dir, hwalk, hstep⟩ := resolve_eq_ok_iff.mp hp
  refine resolve_eq_ok_iff.mpr ⟨htext, dir, ?_, hstep⟩
  rw [← here]
  exact walk_of_directories h hwalk

theorem walk_last {dir : Location} {piece : String}
    (h : d.get? (step dir piece) = some .directory) :
    d.walk dir [piece] = .ok (step dir piece) := by
  unfold step at h ⊢
  rw [walk]
  split
  · rfl
  next hblank =>
  split
  · rfl
  next hup =>
  rw [if_neg hblank, if_neg hup] at h
  rw [h]
  rfl

/-- A path that names a directory leads into it. -/
theorem enter_of_directory {p : Path} {l : Location} (hp : d.resolve p = .ok l)
    (hl : d.get? l = some .directory) : d.enter p = .ok l := by
  obtain ⟨-, dir, hwalk, rfl⟩ := resolve_eq_ok_iff.mp hp
  have hne : p.pieces ≠ [] := by
    rw [Path.pieces, Ne, List.map_eq_nil_iff]
    exact Path.split_ne_nil _
  obtain ⟨front, piece, hpieces⟩ : ∃ front piece, p.pieces = front ++ [piece] :=
    ⟨_, _, (List.dropLast_concat_getLast hne).symm⟩
  rw [hpieces, List.dropLast_concat] at hwalk
  rw [hpieces, List.getLast?_concat, Option.getD_some] at hl ⊢
  rw [enter, hpieces, walk_append, hwalk]
  exact walk_last hl

theorem AgreeOn.resolve {places : Set Location} (h : d.AgreeOn places d') {p : Path}
    {l : Location} : d.resolve p = .ok l ↔ d'.resolve p = .ok l :=
  ⟨resolve_of_directories h.here fun l => (h.directory l).mp,
    resolve_of_directories h.here.symm fun l => (h.directory l).mpr⟩

/-! Changes at a place where no directory is. -/

section

variable {l : Location} (hl : d.get? l ≠ some .directory)

include hl

theorem ne_root : l ≠ [] := by
  rintro rfl
  exact hl rfl

theorem get?_put_of_ne (e : Entry) (l' : Location) :
    (d.put l e).get? l' = if l' = l then some e else d.get? l' := by
  rw [get?_put]
  split
  · next hroot =>
    subst hroot
    rw [if_neg (ne_root hl).symm]
    rfl
  · rfl

theorem get?_erase_of_ne (l' : Location) :
    (d.erase l).get? l' = if l' = l then none else d.get? l' := by
  rw [get?_erase]
  split
  · next hroot =>
    subst hroot
    rw [if_neg (ne_root hl).symm]
    rfl
  · rfl

theorem agreeOn_put (content : ByteArray) : d.AgreeOn {l}ᶜ (d.put l (.file content)) where
  here := rfl
  directory l' := by
    rw [get?_put_of_ne hl]
    split
    · next hsame => simp [hsame, hl]
    · rfl
  entry l' hl' := by rw [get?_put_of_ne hl, if_neg (show l' ≠ l from hl')]

theorem agreeOn_erase : d.AgreeOn {l}ᶜ (d.erase l) where
  here := rfl
  directory l' := by
    rw [get?_erase_of_ne hl]
    split
    · next hsame => simp [hsame, hl]
    · rfl
  entry l' hl' := by rw [get?_erase_of_ne hl, if_neg (show l' ≠ l from hl')]

/-- A file that is moved from one place to another. -/
theorem get?_put_erase {l' : Location} (hl' : d.get? l' ≠ some .directory) (e : Entry)
    (x : Location) : ((d.erase l).put l' e).get? x =
      if x = l' then some e else if x = l then none else d.get? x := by
  rw [get?_put_of_ne (mt ((agreeOn_erase hl).directory l').mpr hl'), get?_erase_of_ne hl]

theorem agreeOn_put_erase {l' : Location} (hl' : d.get? l' ≠ some .directory)
    (content : ByteArray) : d.AgreeOn {l, l'}ᶜ ((d.erase l).put l' (.file content)) := by
  have hgoal := mt ((agreeOn_erase hl).directory l').mpr hl'
  have herased : ({l, l'} : Set Location)ᶜ ⊆ {l}ᶜ := fun x hx heq => hx (.inl heq)
  have hfilled : ({l, l'} : Set Location)ᶜ ⊆ {l'}ᶜ := fun x hx heq => hx (.inr heq)
  exact ((agreeOn_erase hl).mono herased).trans ((agreeOn_put hgoal content).mono hfilled)

variable {places : Set Location} (h : d.AgreeOn places d')

include h

theorem AgreeOn.put (content : ByteArray) :
    (d.put l (.file content)).AgreeOn places (d'.put l (.file content)) := by
  have hl' : d'.get? l ≠ some .directory := fun hdir => hl ((h.directory l).mpr hdir)
  refine ⟨h.here, fun l' => ?_, fun l' hmem => ?_⟩ <;>
    rw [get?_put_of_ne hl, get?_put_of_ne hl']
  · split
    · rfl
    · exact h.directory l'
  · rw [h.entry l' hmem]

theorem AgreeOn.erase : (d.erase l).AgreeOn places (d'.erase l) := by
  have hl' : d'.get? l ≠ some .directory := fun hdir => hl ((h.directory l).mpr hdir)
  refine ⟨h.here, fun l' => ?_, fun l' hmem => ?_⟩ <;>
    rw [get?_erase_of_ne hl, get?_erase_of_ne hl']
  · split
    · rfl
    · exact h.directory l'
  · rw [h.entry l' hmem]

end

/-! Operations on a path, by what is at the place that it leads to. -/

section

variable {p q : Path} {l l' : Location} (hp : d.resolve p = .ok l)

include hp

theorem status_eq : d.status p =
    match d.get? l with
    | some (.file _) => .file
    | some .directory => .directory
    | none => .absent := by
  unfold status
  split
  · next fault hfault => exact nomatch hp.symm.trans hfault
  · next place hplace =>
    obtain rfl : l = place := Except.ok.inj (hp.symm.trans hplace)
    rfl

theorem status_eq_file_iff :
    d.status p = .file ↔ ∃ content, d.get? l = some (.file content) := by
  rw [status_eq hp]
  constructor
  · intro h
    split at h
    · next content hfile => exact ⟨content, hfile⟩
    · cases h
    · cases h
  · rintro ⟨content, hfile⟩
    rw [hfile]

theorem read_eq : d.read p =
    match d.get? l with
    | some (.file content) => .ok content
    | some .directory => .error .isDirectory
    | none => .error .notFound := by
  rw [read, hp]
  rfl

theorem list_eq : d.list p =
    match d.get? l with
    | some .directory => .ok (d.children l)
    | some (.file _) => .error .notDirectory
    | none => .error .notFound := by
  rw [list, hp]
  rfl

theorem write_eq (content : ByteArray) : d.write p content =
    match d.get? l with
    | some .directory => .error .isDirectory
    | _ => .ok (d.put l (.file content)) := by
  rw [write, hp]
  rfl

theorem write_of_ne (hl : d.get? l ≠ some .directory) (content : ByteArray) :
    d.write p content = .ok (d.put l (.file content)) := by
  rw [write_eq hp]
  split
  · next hdir => exact absurd hdir hl
  · rfl

theorem remove_eq : d.remove p =
    match d.get? l with
    | some (.file _) => .ok (d.erase l)
    | some .directory => .error .isDirectory
    | none => .error .notFound := by
  rw [remove, hp]
  rfl

theorem rename_eq (hq : d.resolve q = .ok l') : d.rename p q =
    match d.get? l, d.get? l' with
    | none, _ => .error .notFound
    | some .directory, _ | _, some .directory => .error .isDirectory
    | some moved, _ => .ok ((d.erase l).put l' moved) := by
  rw [rename, hp, hq]
  rfl

/-- A file is moved if no directory is at the target. -/
theorem rename_of_file (hq : d.resolve q = .ok l') {content : ByteArray}
    (hl : d.get? l = some (.file content)) (hl' : d.get? l' ≠ some .directory) :
    d.rename p q = .ok ((d.erase l).put l' (.file content)) := by
  rw [rename_eq hp hq, hl]
  cases hgoal : d.get? l' with
  | none => rfl
  | some e =>
    cases e with
    | file => rfl
    | directory => exact absurd hgoal hl'

theorem exists_of_rename {d₁ : Disk} (hq : d.resolve q = .ok l') (h : d.rename p q = .ok d₁) :
    ∃ content, d.get? l = some (.file content) ∧ d.get? l' ≠ some .directory ∧
      d₁ = (d.erase l).put l' (.file content) := by
  rw [rename_eq hp hq] at h
  split at h
  · cases h
  · cases h
  · cases h
  · next moved hfile hl hdir =>
    cases moved with
    | directory => exact absurd rfl hfile
    | file content => exact ⟨content, hl, hdir, (Except.ok.inj h).symm⟩

end

/-! Operations that succeed. -/

section

variable {p : Path}

theorem exists_of_status_file (h : d.status p = .file) :
    ∃ l content, d.resolve p = .ok l ∧ d.get? l = some (.file content) := by
  cases hp : d.resolve p with
  | error fault => simp [status, hp] at h
  | ok l =>
    obtain ⟨content, hfile⟩ := (status_eq_file_iff hp).mp h
    exact ⟨l, content, rfl, hfile⟩

theorem exists_of_status_directory (h : d.status p = .directory) :
    ∃ l, d.resolve p = .ok l ∧ d.get? l = some .directory := by
  cases hp : d.resolve p with
  | error fault => simp [status, hp] at h
  | ok l =>
    rw [status_eq hp] at h
    split at h
    · cases h
    · next hdir => exact ⟨l, rfl, hdir⟩
    · cases h

theorem exists_of_list {names : List String} (h : d.list p = .ok names) :
    ∃ l, d.resolve p = .ok l ∧ names = d.children l := by
  unfold list at h
  cases hl : d.resolve p with
  | error fault =>
    rw [hl] at h
    cases h
  | ok l =>
    rw [hl] at h
    dsimp only [bind, Except.bind] at h
    split at h
    · exact ⟨l, rfl, (Except.ok.inj h).symm⟩
    · cases h
    · cases h

theorem exists_of_write {p : Path} {content : ByteArray} (h : d.write p content = .ok d') :
    ∃ l, d.resolve p = .ok l ∧ d.get? l ≠ some .directory ∧ d' = d.put l (.file content) := by
  cases hp : d.resolve p with
  | error fault =>
    rw [write, hp] at h
    cases h
  | ok l =>
    rw [write_eq hp] at h
    split at h
    · cases h
    · next hne => exact ⟨l, rfl, hne, (Except.ok.inj h).symm⟩

end

end Jack.Disk
