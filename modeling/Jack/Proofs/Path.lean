import Jack.Path
import Jack.Proofs.Text

/-! Paths put together from a directory and the name of an entry. The name is the last piece of the
path and the path's file name; what is in front of it, and so the parent, is the same for all names.
Pieces at the end of a path that stand for nothing are not in its parent. -/

namespace Jack.Path

/-- A name that an entry of a directory can have. -/
structure IsEntryName (name : String) : Prop where
  nonempty : name ≠ ""
  ne_dot : name ≠ "."
  ne_dots : name ≠ ".."
  no_slash : '/' ∉ name.toList

theorem isEntryName_iff {name : String} :
    IsEntryName name ↔ name ≠ "" ∧ name ≠ "." ∧ name ≠ ".." ∧ '/' ∉ name.toList :=
  ⟨fun h => ⟨h.nonempty, h.ne_dot, h.ne_dots, h.no_slash⟩, fun ⟨h, h₁, h₂, h₃⟩ => ⟨h, h₁, h₂, h₃⟩⟩

instance (name : String) : Decidable (IsEntryName name) := decidable_of_iff' _ isEntryName_iff

/-! Pieces of a text. -/

theorem split_ne_nil (cs : List Char) : split cs ≠ [] := by
  cases cs with
  | nil => simp [split]
  | cons c rest =>
    unfold split
    split
    · exact List.cons_ne_nil _ _
    · split <;> exact List.cons_ne_nil _ _

theorem split_of_no_slash {cs : List Char} (h : '/' ∉ cs) : split cs = [cs] := by
  induction cs with
  | nil => rfl
  | cons c rest ih =>
    rw [List.mem_cons, not_or] at h
    rw [split, if_neg (Ne.symm h.1), ih h.2]

theorem split_append_slash (cs ds : List Char) :
    split (cs ++ '/' :: ds) = split cs ++ split ds := by
  induction cs with
  | nil => rfl
  | cons c rest ih =>
    rw [List.cons_append, split, split, ih]
    by_cases slash : c = '/'
    · rw [if_pos slash, if_pos slash, List.cons_append]
    · rw [if_neg slash, if_neg slash]
      cases hrest : split rest with
      | nil => exact absurd hrest (split_ne_nil rest)
      | cons first others => rfl

theorem pieces_append_slash (s t : String) :
    pieces ⟨s ++ "/" ++ t⟩ = pieces ⟨s⟩ ++ pieces ⟨t⟩ := by
  have htext : (s ++ "/" ++ t).toList = s.toList ++ '/' :: t.toList := by simp
  rw [pieces, pieces, pieces, htext, split_append_slash, List.map_append]

theorem pieces_of_no_slash {s : String} (h : '/' ∉ s.toList) : pieces ⟨s⟩ = [s] := by
  rw [pieces, split_of_no_slash h, List.map_singleton, String.ofList_toList]

/-! The path of a name that is seen from a directory. -/

/-- What stands in front of the name. -/
def lead (dir : Path) : String :=
  if dir.text.toList.getLast?.all (· == '/') then dir.text else dir.text ++ "/"

theorem isAbsolute_of_no_slash {s : String} (h : '/' ∉ s.toList) : isAbsolute ⟨s⟩ = false := by
  rw [isAbsolute, beq_eq_false_iff_ne]
  intro hhead
  exact h (List.mem_of_head? hhead)

theorem isAbsolute_append {s : String} (h : s ≠ "") (t : String) :
    isAbsolute ⟨s ++ t⟩ = isAbsolute ⟨s⟩ := by
  obtain ⟨c, more, hs⟩ := List.exists_cons_of_ne_nil (mt String.toList_eq_nil_iff.mp h)
  rw [isAbsolute, isAbsolute, String.toList_append, hs]
  rfl

theorem join_eq (dir : Path) {name : String} (h : '/' ∉ name.toList) :
    dir.join name = ⟨dir.lead ++ name⟩ := by
  rw [join, isAbsolute_of_no_slash h, if_neg Bool.false_ne_true, lead]
  split <;> rfl

/-- In front of a name stands nothing, or a text that ends with a slash. -/
theorem lead_cases (dir : Path) :
    (dir.text = "" ∧ dir.lead = "") ∨
      (∃ front, dir.text = front ++ "/" ∧ dir.lead = front ++ "/") ∨
        (dir.text ≠ "" ∧ dir.lead = dir.text ++ "/") := by
  unfold lead
  split
  · next h =>
    cases hlast : dir.text.toList.getLast? with
    | none =>
      have htext : dir.text = "" := String.toList_eq_nil_iff.mp (List.getLast?_eq_none_iff.mp hlast)
      exact .inl ⟨htext, htext⟩
    | some c =>
      rw [hlast, Option.all_some, beq_iff_eq] at h
      subst h
      obtain ⟨front, hfront⟩ := List.getLast?_eq_some_iff.mp hlast
      have htext : dir.text = String.ofList front ++ "/" := by
        rw [← String.toList_inj, hfront, String.toList_append, String.toList_ofList]
        rfl
      exact .inr (.inl ⟨_, htext, htext⟩)
  · next h =>
    refine .inr (.inr ⟨?_, rfl⟩)
    rintro hempty
    exact h (by rw [hempty]; rfl)

theorem join_inj {dir : Path} {name name' : String} (h : '/' ∉ name.toList)
    (h' : '/' ∉ name'.toList) : dir.join name = dir.join name' ↔ name = name' := by
  rw [join_eq dir h, join_eq dir h', Path.mk.injEq, String.append_right_inj]

/-- Every path is its last piece, seen from what stands in front of it. -/
theorem exists_join (p : Path) :
    ∃ (dir : Path) (name : String), '/' ∉ name.toList ∧ p = dir.join name := by
  have hwhole := List.takeWhile_append_dropWhile (p := isName) (l := p.text.toList.reverse)
  have hslash := not_head_dropWhile isName p.text.toList.reverse
  generalize hback : p.text.toList.reverse.takeWhile isName = back at hwhole
  generalize hfront : p.text.toList.reverse.dropWhile isName = front at hwhole hslash
  have hname : '/' ∉ (String.ofList back.reverse).toList := by
    rw [String.toList_ofList, List.mem_reverse, ← hback]
    exact fun hmem => absurd (List.mem_takeWhile_imp hmem) (by decide)
  have hlead : lead ⟨String.ofList front.reverse⟩ = String.ofList front.reverse := by
    rw [lead, String.toList_ofList, List.getLast?_reverse, if_pos]
    cases front with
    | nil => rfl
    | cons c rest => simpa [isName] using hslash c rfl
  refine ⟨⟨String.ofList front.reverse⟩, String.ofList back.reverse, hname, ?_⟩
  rw [join_eq _ hname, hlead, ← String.ofList_append, ← List.reverse_append, hwhole,
    List.reverse_reverse, String.ofList_toList]

/-- Behind the pieces of the directory, of which some at the end may be empty, the name is the last
piece. -/
theorem pieces_join (dir : Path) {name : String} (h : '/' ∉ name.toList) :
    ∃ front blanks, (dir.join name).pieces = front ++ [name] ∧ dir.pieces = front ++ blanks ∧
      ∀ piece ∈ blanks, piece = "" := by
  rw [join_eq dir h]
  rcases dir.lead_cases with ⟨htext, hlead⟩ | ⟨front, htext, hlead⟩ | ⟨hne, hlead⟩
  · refine ⟨[], [""], ?_, ?_, by simp⟩
    · rw [hlead, String.empty_append, pieces_of_no_slash h, List.nil_append]
    · rw [pieces, htext]
      rfl
  · refine ⟨pieces ⟨front⟩, [""], ?_, ?_, by simp⟩
    · rw [hlead, pieces_append_slash, pieces_of_no_slash h]
    · have hblank := pieces_append_slash front ""
      rw [String.append_empty, ← htext] at hblank
      exact hblank
  · refine ⟨dir.pieces, [], ?_, (List.append_nil _).symm, by simp⟩
    rw [hlead, pieces_append_slash, pieces_of_no_slash h]

theorem isAbsolute_join (dir : Path) {name : String} (h : '/' ∉ name.toList) :
    (dir.join name).isAbsolute = dir.isAbsolute := by
  rw [join_eq dir h]
  rcases dir.lead_cases with ⟨htext, hlead⟩ | ⟨front, htext, hlead⟩ | ⟨hne, hlead⟩
  · rw [hlead, String.empty_append, isAbsolute_of_no_slash h, isAbsolute, htext]
    rfl
  · rw [hlead, isAbsolute_append (by simp), ← htext]
  · rw [hlead, isAbsolute_append (by simp), isAbsolute_append hne]

/-! The name and the parent of a joined path. -/

theorem slash_of_lead (dir : Path) : ∀ c ∈ dir.lead.toList.reverse.head?, isName c = false := by
  rw [List.head?_reverse]
  rcases dir.lead_cases with ⟨-, hlead⟩ | ⟨front, -, hlead⟩ | ⟨-, hlead⟩ <;> rw [hlead]
  · rintro c ⟨⟩
  · simp [isName]
  · simp [isName]

theorem trimReversed_append {name : List Char} (nonempty : name ≠ []) (ne_dot : name ≠ ['.'])
    (no_slash : '/' ∉ name) (tail : List Char) : trimReversed (name ++ tail) = name ++ tail := by
  refine trimReversed.eq_3 _ (fun rest hrest => ?_) (fun rest hrest => ?_)
  · obtain ⟨c, more, rfl⟩ := List.exists_cons_of_ne_nil nonempty
    obtain ⟨rfl, -⟩ := List.cons.inj hrest
    exact no_slash List.mem_cons_self
  · obtain ⟨c, more, rfl⟩ := List.exists_cons_of_ne_nil nonempty
    obtain ⟨rfl, hmore⟩ := List.cons.inj hrest
    -- a dot alone is no name, and a name has no slash
    cases more with
    | nil => exact ne_dot rfl
    | cons d more =>
      obtain ⟨rfl, -⟩ := List.cons.inj hmore
      exact no_slash (List.mem_cons_of_mem _ List.mem_cons_self)

section

variable {name : String} (h : IsEntryName name) (dir : Path)

include h

theorem reversed_join :
    (dir.join name).reversed = name.toList.reverse ++ dir.lead.toList.reverse := by
  rw [join_eq dir h.no_slash, reversed, String.toList_append, List.reverse_append]
  refine trimReversed_append ?_ ?_ (fun hmem => h.no_slash (List.mem_reverse.mp hmem)) _
  · rw [Ne, List.reverse_eq_nil_iff, String.toList_eq_nil_iff]
    exact h.nonempty
  · rw [Ne, List.reverse_eq_iff]
    exact fun hdot => h.ne_dot (String.toList_injective hdot)

theorem isName_of_entryName : ∀ c ∈ name.toList.reverse, isName c := by
  intro c hc
  rw [isName, bne_iff_ne]
  rintro rfl
  exact h.no_slash (List.mem_reverse.mp hc)

theorem takeWhile_reversed_join :
    (dir.join name).reversed.takeWhile isName = name.toList.reverse := by
  rw [reversed_join h]
  exact takeWhile_append_rest (isName_of_entryName h) dir.slash_of_lead

theorem dropWhile_reversed_join :
    (dir.join name).reversed.dropWhile isName = dir.lead.toList.reverse := by
  rw [reversed_join h]
  exact dropWhile_append_rest (isName_of_entryName h) dir.slash_of_lead

theorem fileName_join : (dir.join name).fileName = some name.toList := by
  have hname (other : String) (hne : name ≠ other) : name.toList ≠ other.toList :=
    fun heq => hne (String.toList_injective heq)
  rw [fileName, takeWhile_reversed_join h, List.reverse_reverse]
  refine if_neg ?_
  rw [not_or, not_or]
  exact ⟨hname "" h.nonempty, hname "." h.ne_dot, hname ".." h.ne_dots⟩

theorem parent_join :
    (dir.join name).parent = some (ofReversed (trimReversed dir.lead.toList.reverse)) := by
  have hfirst : (dir.join name).reversed.takeWhile isName ≠ [] := by
    rw [takeWhile_reversed_join h, Ne, List.reverse_eq_nil_iff, String.toList_eq_nil_iff]
    exact h.nonempty
  rw [parent, if_neg, dropWhile_reversed_join h]
  rintro (hnone | hroot)
  · rw [hnone] at hfirst
    exact hfirst rfl
  · rw [hroot] at hfirst
    exact hfirst rfl

end

/-! Pieces that stand for nothing make no difference. -/

/-- The pieces that stand for something. -/
def names (p : Path) : List String := p.pieces.filter fun piece => piece ≠ "" ∧ piece ≠ "."

theorem names_ofReversed_slash (r : List Char) :
    (ofReversed ('/' :: r)).names = (ofReversed r).names := by
  have hpieces : (ofReversed ('/' :: r)).pieces = (ofReversed r).pieces ++ [""] := by
    rw [ofReversed, List.reverse_cons, pieces, String.toList_ofList, split_append_slash,
      List.map_append, pieces, ofReversed, String.toList_ofList]
    rfl
  rw [names, hpieces, List.filter_append, names]
  simp

theorem names_ofReversed_dot (r : List Char) :
    (ofReversed ('.' :: '/' :: r)).names = (ofReversed r).names := by
  have hpieces : (ofReversed ('.' :: '/' :: r)).pieces = (ofReversed r).pieces ++ ["."] := by
    rw [ofReversed, List.reverse_cons, List.reverse_cons, List.append_assoc, pieces,
      String.toList_ofList, List.singleton_append, split_append_slash, List.map_append, pieces,
      ofReversed, String.toList_ofList]
    rfl
  rw [names, hpieces, List.filter_append, names]
  simp

theorem names_ofReversed_trimReversed (r : List Char) :
    (ofReversed (trimReversed r)).names = (ofReversed r).names := by
  fun_induction trimReversed r with
  | case1 => rfl
  | case2 rest _ ih => rw [ih, names_ofReversed_slash]
  | case3 => rw [names_ofReversed_dot]; rfl
  | case4 rest _ ih => rw [ih, names_ofReversed_dot]
  | case5 => rfl

theorem isAbsolute_ofReversed (r : List Char) :
    (ofReversed r).isAbsolute = (r.getLast? == some '/') := by
  rw [isAbsolute, ofReversed, String.toList_ofList, List.head?_reverse]

theorem getLast?_trimReversed (r : List Char) : (trimReversed r).getLast? = r.getLast? := by
  fun_induction trimReversed r with
  | case1 => rfl
  | case2 rest hrest ih => rw [ih, List.getLast?_cons_of_ne_nil hrest]
  | case3 => rfl
  | case4 rest hrest ih =>
    rw [ih, List.getLast?_cons_of_ne_nil (List.cons_ne_nil _ _), List.getLast?_cons_of_ne_nil hrest]
  | case5 => rfl

theorem names_lead (dir : Path) : names ⟨dir.lead⟩ = dir.names := by
  rcases dir.lead_cases with ⟨htext, hlead⟩ | ⟨front, htext, hlead⟩ | ⟨-, hlead⟩
  · rw [hlead, ← htext]
  · rw [hlead, ← htext]
  · have hpieces := pieces_append_slash dir.text ""
    have hblank : pieces ⟨""⟩ = [""] := rfl
    rw [String.append_empty, ← hlead, hblank] at hpieces
    rw [names, hpieces, List.filter_append, names]
    simp

theorem isAbsolute_lead (dir : Path) : isAbsolute ⟨dir.lead⟩ = dir.isAbsolute := by
  rcases dir.lead_cases with ⟨htext, hlead⟩ | ⟨front, htext, hlead⟩ | ⟨hne, hlead⟩
  · rw [hlead, ← htext]
  · rw [hlead, ← htext]
  · rw [hlead, isAbsolute_append hne]

/-- The parent of a joined path has the pieces of the directory that stand for something. -/
theorem names_parent_join {dir q : Path} {name : String} (h : IsEntryName name)
    (hq : (dir.join name).parent = some q) :
    q.names = dir.names ∧ q.isAbsolute = dir.isAbsolute := by
  rw [parent_join h, Option.some.injEq] at hq
  have hlead : ofReversed dir.lead.toList.reverse = ⟨dir.lead⟩ := by
    rw [ofReversed, List.reverse_reverse, String.ofList_toList]
  subst hq
  constructor
  · rw [names_ofReversed_trimReversed, hlead, names_lead]
  · rw [isAbsolute_ofReversed, getLast?_trimReversed, ← isAbsolute_ofReversed, hlead,
      isAbsolute_lead]

/-! The parts of a file name. -/

theorem no_slash_of_fileName {p : Path} {name : List Char} (h : p.fileName = some name) :
    '/' ∉ name := by
  dsimp only [fileName] at h
  split at h
  · cases h
  · cases h
    intro hmem
    have hslash := List.mem_takeWhile_imp (List.mem_reverse.mp hmem)
    exact absurd hslash (by decide)

/-- A name is cut at its last dot, if something stands before it. -/
theorem cutName_eq_some_iff {name stem extension : List Char} :
    cutName name = some (stem, extension) ↔
      name = stem ++ '.' :: extension ∧ stem ≠ [] ∧ '.' ∉ extension := by
  constructor
  · intro h
    unfold cutName at h
    split at h
    · next dot first more hrest =>
      cases h
      have hdot := not_head_dropWhile (· != '.') name.reverse dot (by rw [hrest]; rfl)
      have hwhole := List.takeWhile_append_dropWhile (p := (· != '.')) (l := name.reverse)
      rw [hrest] at hwhole
      obtain rfl : dot = '.' := by simpa using hdot
      have hreversed := congrArg List.reverse hwhole
      rw [List.reverse_append, List.reverse_reverse, List.reverse_cons] at hreversed
      rw [List.append_assoc] at hreversed
      refine ⟨hreversed.symm, by simp, fun hmem => ?_⟩
      exact absurd (List.mem_takeWhile_imp (List.mem_reverse.mp hmem)) (by decide)
    · cases h
  · rintro ⟨rfl, hstem, hdot⟩
    obtain ⟨first, more, hreversed⟩ :=
      List.exists_cons_of_ne_nil (mt List.reverse_eq_nil_iff.mp hstem)
    have hinside : ∀ c ∈ extension.reverse, c != '.' := by
      intro c hc
      rw [bne_iff_ne]
      rintro rfl
      exact hdot (List.mem_reverse.mp hc)
    have hends : ∀ c ∈ ('.' :: stem.reverse).head?, (c != '.') = false := by simp
    rw [cutName, List.reverse_append, List.reverse_cons, List.append_assoc, List.singleton_append,
      takeWhile_append_rest hinside hends, dropWhile_append_rest hinside hends, hreversed,
      List.reverse_reverse]
    change some ((first :: more).reverse, extension) = _
    rw [← hreversed, List.reverse_reverse]

theorem no_slash_of_stem (p : Path) : '/' ∉ (p.stem.getD "").toList := by
  unfold stem
  cases hname : p.fileName with
  | none => decide
  | some name =>
    have hslash := no_slash_of_fileName hname
    cases hcut : cutName name with
    | none => simpa [hcut] using hslash
    | some cut =>
      obtain ⟨stem, extension⟩ := cut
      rw [(cutName_eq_some_iff.mp hcut).1] at hslash
      simpa [hcut] using fun hmem => hslash (List.mem_append_left _ hmem)

theorem fileName_of_extension {p : Path} {extension : String} (h : p.extension = some extension) :
    ∃ stem, p.stem = some stem ∧ p.fileName = some (stem ++ "." ++ extension).toList := by
  obtain ⟨⟨stem, rest⟩, hbind, rfl⟩ := Option.map_eq_some_iff.mp h
  obtain ⟨name, hname, hcut⟩ := Option.bind_eq_some_iff.mp hbind
  refine ⟨String.ofList stem, ?_, ?_⟩
  · rw [Path.stem, hname, Option.map_some, hcut]
    rfl
  · rw [hname, (cutName_eq_some_iff.mp hcut).1]
    simp

end Jack.Path
