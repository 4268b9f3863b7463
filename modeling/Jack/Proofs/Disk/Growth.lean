import Mathlib.Data.List.Basic
import Jack.Proofs.Disk.Basic

/-! Disks that grow. A directory that is made is added to the disk, where nothing was before, and
its path leads into it from then on; whatever was there is there still, and every way to it is
open. -/

namespace Jack

/-- Everything on the one disk is on the other as well. -/
structure Disk.GrowsTo (d d' : Disk) : Prop where
  here : d.here = d'.here
  entry : ∀ l e, d.get? l = some e → d'.get? l = some e

namespace Disk

variable {d d' d'' : Disk} {p : Path}

theorem GrowsTo.refl (d : Disk) : d.GrowsTo d := ⟨rfl, fun _ _ h => h⟩

theorem GrowsTo.trans (h : d.GrowsTo d') (h' : d'.GrowsTo d'') : d.GrowsTo d'' :=
  ⟨h.here.trans h'.here, fun l e he => h'.entry l e (h.entry l e he)⟩

theorem GrowsTo.resolve (h : d.GrowsTo d') {l : Location} (hp : d.resolve p = .ok l) :
    d'.resolve p = .ok l :=
  resolve_of_directories h.here (fun l => h.entry l _) hp

theorem GrowsTo.status_file (h : d.GrowsTo d') (hp : d.status p = .file) :
    d'.status p = .file := by
  obtain ⟨l, content, hl, hfile⟩ := exists_of_status_file hp
  rw [status_eq (h.resolve hl), h.entry l _ hfile]

/-- The pieces of a path, with the empty ones at its end apart. -/
theorem exists_namedPieces_append (p : Path) :
    ∃ blanks, p.pieces = namedPieces p ++ blanks ∧ ∀ piece ∈ blanks, piece = "" := by
  refine ⟨(p.pieces.reverse.takeWhile (· == "")).reverse, ?_, fun piece hpiece => ?_⟩
  · rw [namedPieces, ← List.reverse_append, List.takeWhile_append_dropWhile, List.reverse_reverse]
  · exact beq_iff_eq.mp (List.mem_takeWhile_imp (p := (· == "")) (List.mem_reverse.mp hpiece))

theorem getLast?_namedPieces_ne (p : Path) : (namedPieces p).getLast? ≠ some "" := by
  rw [namedPieces, List.getLast?_reverse]
  intro h
  have hnot := List.head?_dropWhile_not (· == "") p.pieces.reverse
  rw [h] at hnot
  cases hnot

theorem exists_of_makeDir (h : d.makeDir p = .ok d') :
    ∃ dir name, d.walk (if p.isAbsolute then [] else d.here) (namedPieces p).dropLast = .ok dir ∧
      (namedPieces p).getLast? = some name ∧ name ≠ "." ∧ name ≠ ".." ∧
      d.get? (dir ++ [name]) = none ∧ d' = d.put (dir ++ [name]) .directory := by
  unfold makeDir at h
  split at h
  · cases h
  cases hwalk : d.walk (if p.isAbsolute then [] else d.here) (namedPieces p).dropLast with
  | error fault =>
    simp only [hwalk] at h
    cases h
  | ok dir =>
    simp only [hwalk, bind, Except.bind] at h
    split at h
    · cases h
    · next name hlast =>
      split at h
      · cases h
      · next hdots =>
        split at h
        · cases h
        · next hnone =>
          obtain ⟨hdot, hdots⟩ := not_or.mp hdots
          exact ⟨dir, name, rfl, hlast, hdot, hdots, hnone, (Except.ok.inj h).symm⟩

theorem growsTo_put {l : Location} (hl : d.get? l = none) : d.GrowsTo (d.put l .directory) := by
  refine ⟨rfl, fun l' e he => ?_⟩
  rw [get?_put_of_ne (by simp [hl])]
  split
  · next hsame =>
    rw [hsame, hl] at he
    cases he
  · exact he

/-- A directory that is made is added to the disk, and its path leads into it. -/
theorem growsTo_makeDir (h : d.makeDir p = .ok d') :
    d.GrowsTo d' ∧ ∃ l, d'.enter p = .ok l := by
  obtain ⟨dir, name, hwalk, hlast, hdot, hdots, hnone, rfl⟩ := exists_of_makeDir h
  have hgrows := growsTo_put hnone
  refine ⟨hgrows, dir ++ [name], ?_⟩
  obtain ⟨blanks, hpieces, hblanks⟩ := exists_namedPieces_append p
  have hnamed : (namedPieces p).dropLast ++ [name] = namedPieces p :=
    List.dropLast_append_getLast? name hlast
  have hempty : name ≠ "" := fun h => getLast?_namedPieces_ne p (h ▸ hlast)
  have hfront := walk_of_directories (fun l => hgrows.entry l _) hwalk
  have hmade : (d.put (dir ++ [name]) .directory).get? (dir ++ [name]) = some .directory := by
    rw [get?_put_of_ne (by simp [hnone]), if_pos rfl]
  have hinto (rest : List String) : (d.put (dir ++ [name]) .directory).walk dir (name :: rest) =
      (d.put (dir ++ [name]) .directory).walk (dir ++ [name]) rest := by
    rw [walk, if_neg (not_or.mpr ⟨hempty, hdot⟩), if_neg hdots, hmade]
  rw [enter, hpieces, ← hnamed, List.append_assoc, walk_append]
  change (d.put (dir ++ [name]) .directory).walk (if p.isAbsolute then [] else d.here) _ >>= _ = _
  rw [hfront]
  change (d.put (dir ++ [name]) .directory).walk dir (name :: blanks) = _
  rw [hinto]
  exact walk_blanks _ _ fun piece hpiece => .inl (hblanks piece hpiece)

end Disk

end Jack
