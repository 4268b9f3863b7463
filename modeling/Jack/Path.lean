/-!
Paths, as text. Names are separated by slashes. Empty names, and `.` anywhere but in front,
stand for nothing and are passed over at the end of a path; a text in front of them is kept
as it was written.
-/

namespace Jack

structure Path where
  text : String
deriving DecidableEq, Repr

namespace Path

/-- The pieces between the slashes of a text; there is always at least one. -/
def split : List Char → List (List Char)
  | [] => [[]]
  | c :: rest =>
    if c = '/' then [] :: split rest
    else
      match split rest with
      | [] => [[c]]
      | first :: others => (c :: first) :: others

def pieces (p : Path) : List String := (split p.text.toList).map String.ofList

def isAbsolute (p : Path) : Bool := p.text.toList.head? == some '/'

/-- Takes the last pieces off a reversed text for as long as they stand for nothing. The
slash of the root and a `.` in front remain. -/
def trimReversed : List Char → List Char
  | '/' :: rest => if rest = [] then ['/'] else trimReversed rest
  | '.' :: '/' :: rest => if rest = [] then ['/'] else trimReversed rest
  | rest => rest

theorem trimReversed_length_le (r : List Char) : (trimReversed r).length ≤ r.length := by
  fun_induction trimReversed r <;> simp_all <;> omega

/-- The text up to the last piece that stands for something, reversed. -/
def reversed (p : Path) : List Char := trimReversed p.text.toList.reverse

def ofReversed (r : List Char) : Path := ⟨String.ofList r.reverse⟩

def isName (c : Char) : Bool := c != '/'

/-- The path without its last piece; the root and the empty path have none. -/
def parent (p : Path) : Option Path :=
  if p.reversed = [] ∨ p.reversed = ['/'] then none
  else some (ofReversed (trimReversed (p.reversed.dropWhile isName)))

theorem dropWhile_length_lt {r : List Char} (nonempty : r ≠ []) (notRoot : r ≠ ['/'])
    (trimmed : trimReversed r = r) : (r.dropWhile isName).length < r.length := by
  match r with
  | [] => exact absurd rfl nonempty
  | c :: rest =>
    by_cases slash : c = '/'
    · subst slash
      have more : rest ≠ [] := fun h => notRoot (by rw [h])
      have shorter := trimReversed_length_le rest
      simp only [trimReversed, more, if_false] at trimmed
      have := congrArg List.length trimmed
      simp only [List.length_cons] at this
      omega
    · have := (List.dropWhile_sublist isName (l := rest)).length_le
      simp only [List.dropWhile_cons, isName, bne_iff_ne, ne_eq, slash, not_false_eq_true,
        if_true, List.length_cons]
      exact Nat.lt_succ_of_le this

theorem trimReversed_trimReversed (r : List Char) :
    trimReversed (trimReversed r) = trimReversed r := by
  fun_induction trimReversed r with
  | case1 => rfl
  | case2 _ _ ih => exact ih
  | case3 => rfl
  | case4 _ _ ih => exact ih
  | case5 rest h₁ h₂ => rw [trimReversed.eq_3 rest h₁ h₂]

theorem parent_length_lt {p q : Path} (h : p.parent = some q) :
    q.text.length < p.text.length := by
  unfold parent at h
  split at h
  · cases h
  · rename_i nontrivial
    have step := dropWhile_length_lt (fun e => nontrivial (.inl e)) (fun e => nontrivial (.inr e))
      (trimReversed_trimReversed p.text.toList.reverse)
    have outer := trimReversed_length_le (p.reversed.dropWhile isName)
    have inner := trimReversed_length_le p.text.toList.reverse
    cases h
    simp only [ofReversed, String.length_ofList, List.length_reverse] at inner ⊢
    have size : p.text.toList.length = p.text.length := String.length_toList
    change _ < p.reversed.length at step
    change p.reversed.length ≤ _ at inner
    omega

/-- The name of the file or directory meant, unless the last piece is `.` or `..`. -/
def fileName (p : Path) : Option (List Char) :=
  let name := (p.reversed.takeWhile isName).reverse
  if name = [] ∨ name = ['.'] ∨ name = ['.', '.'] then none else some name

/-- A name cut at its last dot, if there is one with something before it. -/
def cutName (name : List Char) : Option (List Char × List Char) :=
  let extension := (name.reverse.takeWhile (· != '.')).reverse
  match name.reverse.dropWhile (· != '.') with
  | _ :: first :: more => some ((first :: more).reverse, extension)
  | _ => none

/-- The name without its extension. -/
def stem (p : Path) : Option String :=
  p.fileName.map fun name => String.ofList (((cutName name).map (·.1)).getD name)

def extension (p : Path) : Option String :=
  (p.fileName.bind cutName).map fun cut => String.ofList cut.2

/-- The path `name` seen from the directory `dir`. -/
def join (dir : Path) (name : String) : Path :=
  if isAbsolute ⟨name⟩ then ⟨name⟩
  else if dir.text.toList.getLast?.all (· == '/') then ⟨dir.text ++ name⟩
  else ⟨dir.text ++ "/" ++ name⟩

end Path

end Jack
