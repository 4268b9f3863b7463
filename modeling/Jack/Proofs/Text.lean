import Mathlib.Data.List.TakeWhile

/-! Runs of characters of one class at the front of a text, and texts behind other texts. -/

namespace Jack

theorem not_head_dropWhile (p : Char → Bool) (cs : List Char) :
    ∀ c ∈ (cs.dropWhile p).head?, p c = false := by
  intro c hc
  have hhead := List.head?_dropWhile_not p cs
  rw [Option.mem_def.mp hc] at hhead
  exact hhead

theorem takeWhile_append_rest {p : Char → Bool} {cs rest : List Char} (inside : ∀ c ∈ cs, p c)
    (ends : ∀ c ∈ rest.head?, p c = false) : (cs ++ rest).takeWhile p = cs := by
  rw [List.takeWhile_append_of_pos inside]
  cases rest with
  | nil => exact List.append_nil cs
  | cons c rest =>
    have hc := ends c rfl
    rw [List.takeWhile_cons_of_neg (Bool.eq_false_iff.mp hc), List.append_nil]

theorem dropWhile_append_rest {p : Char → Bool} {cs rest : List Char} (inside : ∀ c ∈ cs, p c)
    (ends : ∀ c ∈ rest.head?, p c = false) : (cs ++ rest).dropWhile p = rest := by
  rw [List.dropWhile_append_of_pos inside]
  cases rest with
  | nil => rfl
  | cons c rest =>
    have hc := ends c rfl
    rw [List.dropWhile_cons_of_neg (Bool.eq_false_iff.mp hc)]

/-- Of two texts that are behind one text, one is behind the other. -/
theorem suffix_or_suffix_of_append_eq {front front' back back' : String}
    (h : front ++ back = front' ++ back') :
    back.toList <:+ back'.toList ∨ back'.toList <:+ back.toList := by
  have hlists : front.toList ++ back.toList = front'.toList ++ back'.toList := by
    rw [← String.toList_append, h, String.toList_append]
  have hback : back.toList <:+ front.toList ++ back.toList := List.suffix_append _ _
  have hback' : back'.toList <:+ front.toList ++ back.toList := hlists ▸ List.suffix_append _ _
  exact List.suffix_or_suffix_of_suffix hback hback'

end Jack
