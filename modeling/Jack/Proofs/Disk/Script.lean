import Jack.Disk.Script
import Jack.Proofs.Disk.Basic

/-! Scripts that keep to places of their own. What such a script answers, and what it leaves at the
places that it sees, depends on these places alone; elsewhere it leaves everything as it was. -/

namespace Jack

open Disk

variable {α β : Type} {base d d' d'' : Disk} {sees changes sees' changes' : Set Location}

/-- The request is about files, all its paths lead somewhere, and where they lead is within the
places seen, or within those changed if a file there may be changed. -/
def Request.Within (base : Disk) (sees changes : Set Location) : Request → Prop
  | .status p | .read p => ∃ l ∈ sees, base.resolve p = .ok l
  | .write p _ | .remove p => ∃ l ∈ changes, base.resolve p = .ok l
  | .rename p q => (∃ l ∈ changes, base.resolve p = .ok l) ∧ ∃ l ∈ changes, base.resolve q = .ok l
  | .list _ | .makeDir _ => False

/-- All requests that the script may come to make are within the places. -/
def Script.Within (base : Disk) (sees changes : Set Location) : Script α → Prop
  | .done _ => True
  | .ask request next =>
    request.Within base sees changes ∧ ∀ reply, (next reply).Within base sees changes

namespace Disk

theorem AgreeOn.status (h : d.AgreeOn sees d') {p : Path} {l : Location}
    (hp : d.resolve p = .ok l) (hl : l ∈ sees) : d.status p = d'.status p := by
  rw [status_eq hp, status_eq (h.resolve.mp hp), h.entry l hl]

theorem AgreeOn.status_of_univ (h : d.AgreeOn Set.univ d') (p : Path) :
    d.status p = d'.status p := by
  cases hp : d.resolve p with
  | ok l => exact h.status hp trivial
  | error fault =>
    cases hp' : d'.resolve p with
    | ok l => exact nomatch hp.symm.trans (h.resolve.mpr hp')
    | error fault' => rw [Disk.status, Disk.status, hp, hp']

theorem AgreeOn.read (h : d.AgreeOn sees d') {p : Path} {l : Location}
    (hp : d.resolve p = .ok l) (hl : l ∈ sees) : d.read p = d'.read p := by
  rw [read_eq hp, read_eq (h.resolve.mp hp), h.entry l hl]

/-- A change that two disks undergo alike, or that neither does. -/
theorem AgreeOn.change (h : d.AgreeOn sees d') {x x' : Except Fault Disk}
    (hx : (∃ fault, x = .error fault ∧ x' = .error fault) ∨
      ∃ e e', x = .ok e ∧ x' = .ok e' ∧ e.AgreeOn sees e') :
    (d.change x).1 = (d'.change x').1 ∧ (d.change x).2.AgreeOn sees (d'.change x').2 := by
  obtain ⟨fault, rfl, rfl⟩ | ⟨e, e', rfl, rfl, he⟩ := hx
  · exact ⟨rfl, h⟩
  · exact ⟨rfl, he⟩

end Disk

namespace Request

theorem Within.mono {r : Request} (hr : r.Within base sees changes) (hsees : sees ⊆ sees')
    (hchanges : changes ⊆ changes') : r.Within base sees' changes' := by
  cases r with
  | status p | read p =>
    obtain ⟨l, hl, hp⟩ := hr
    exact ⟨l, hsees hl, hp⟩
  | write p content | remove p =>
    obtain ⟨l, hl, hp⟩ := hr
    exact ⟨l, hchanges hl, hp⟩
  | rename p q =>
    obtain ⟨⟨l, hl, hp⟩, l', hl', hq⟩ := hr
    exact ⟨⟨l, hchanges hl, hp⟩, l', hchanges hl', hq⟩
  | list p | makeDir p => exact hr.elim

theorem Within.answer_agree {r : Request} (hr : r.Within base sees changes)
    (hsub : changes ⊆ sees) (hbase : base.AgreeOn ∅ d) (h : d.AgreeOn sees d') :
    (d.answer r).1 = (d'.answer r).1 ∧ (d.answer r).2.AgreeOn sees (d'.answer r).2 := by
  have hd {p : Path} {l : Location} (hp : base.resolve p = .ok l) : d.resolve p = .ok l :=
    hbase.resolve.mp hp
  have hd' {p : Path} {l : Location} (hp : base.resolve p = .ok l) : d'.resolve p = .ok l :=
    h.resolve.mp (hd hp)
  cases r with
  | status p =>
    obtain ⟨l, hl, hp⟩ := hr
    exact ⟨h.status (hd hp) hl, h⟩
  | list p => exact hr.elim
  | read p =>
    obtain ⟨l, hl, hp⟩ := hr
    exact ⟨h.read (hd hp) hl, h⟩
  | write p content =>
    obtain ⟨l, hl, hp⟩ := hr
    refine h.change ?_
    rw [write_eq (hd hp), write_eq (hd' hp), ← h.entry l (hsub hl)]
    split
    · exact .inl ⟨_, rfl, rfl⟩
    · next hne => exact .inr ⟨_, _, rfl, rfl, h.put hne content⟩
  | rename p q =>
    obtain ⟨⟨l, hl, hp⟩, l', hl', hq⟩ := hr
    refine h.change ?_
    rw [rename_eq (hd hp) (hd hq), rename_eq (hd' hp) (hd' hq), ← h.entry l (hsub hl),
      ← h.entry l' (hsub hl')]
    split
    · exact .inl ⟨_, rfl, rfl⟩
    · exact .inl ⟨_, rfl, rfl⟩
    · exact .inl ⟨_, rfl, rfl⟩
    · next moved hfile horigin hgoal =>
      have hne : d.get? l ≠ some .directory := by
        rw [horigin]
        exact fun hdir => hfile (Option.some.inj hdir)
      have hgoal' : (d.erase l).get? l' ≠ some .directory :=
        mt ((agreeOn_erase hne).directory l').mpr hgoal
      cases moved with
      | directory => exact absurd rfl hfile
      | file content => exact .inr ⟨_, _, rfl, rfl, (h.erase hne).put hgoal' content⟩
  | remove p =>
    obtain ⟨l, hl, hp⟩ := hr
    refine h.change ?_
    rw [remove_eq (hd hp), remove_eq (hd' hp), ← h.entry l (hsub hl)]
    split
    · next hfile => exact .inr ⟨_, _, rfl, rfl, h.erase (by rw [hfile]; simp)⟩
    · exact .inl ⟨_, rfl, rfl⟩
    · exact .inl ⟨_, rfl, rfl⟩
  | makeDir p => exact hr.elim

theorem Within.answer_frame {r : Request} (hr : r.Within base sees changes)
    (hbase : base.AgreeOn ∅ d) : d.AgreeOn changesᶜ (d.answer r).2 := by
  have hd {p : Path} {l : Location} (hp : base.resolve p = .ok l) : d.resolve p = .ok l :=
    hbase.resolve.mp hp
  have hother {l : Location} (hl : l ∈ changes) : changesᶜ ⊆ {l}ᶜ := by
    rintro l' hl' rfl
    exact hl' hl
  cases r with
  | status p | read p => exact .refl _ d
  | list p | makeDir p => exact hr.elim
  | write p content =>
    obtain ⟨l, hl, hp⟩ := hr
    show d.AgreeOn changesᶜ (d.change (d.write p content)).2
    rw [write_eq (hd hp)]
    split
    · exact .refl _ d
    · next hne => exact (agreeOn_put hne content).mono (hother hl)
  | rename p q =>
    obtain ⟨⟨l, hl, hp⟩, l', hl', hq⟩ := hr
    show d.AgreeOn changesᶜ (d.change (d.rename p q)).2
    cases hrename : d.rename p q with
    | error fault => exact .refl _ d
    | ok moved =>
      obtain ⟨content, horigin, hgoal, rfl⟩ := exists_of_rename (hd hp) (hd hq) hrename
      refine (agreeOn_put_erase (by simp [horigin]) hgoal content).mono fun x hx hmoved => hx ?_
      rcases hmoved with rfl | rfl
      · exact hl
      · exact hl'
  | remove p =>
    obtain ⟨l, hl, hp⟩ := hr
    show d.AgreeOn changesᶜ (d.change (d.remove p)).2
    rw [remove_eq (hd hp)]
    split
    · next hfile => exact (agreeOn_erase (by simp [hfile])).mono (hother hl)
    · exact .refl _ d
    · exact .refl _ d

end Request

namespace Script

theorem Within.mono {s : Script α} (hs : s.Within base sees changes) (hsees : sees ⊆ sees')
    (hchanges : changes ⊆ changes') : s.Within base sees' changes' := by
  induction s with
  | done a => trivial
  | ask request next ih =>
    exact ⟨hs.1.mono hsees hchanges, fun reply => ih reply (hs.2 reply)⟩

theorem Within.bind {s : Script α} {f : α → Script β} (hs : s.Within base sees changes)
    (hf : ∀ a, (f a).Within base sees changes) : (s >>= f).Within base sees changes := by
  induction s with
  | done a => exact hf a
  | ask request next ih => exact ⟨hs.1, fun reply => ih reply (hs.2 reply)⟩

theorem Within.request {r : Request} (hr : r.Within base sees changes) :
    (Script.request r).Within base sees changes := ⟨hr, fun _ => trivial⟩

/-- A run changes nothing but at the places that the script may change. -/
theorem Within.run_frame {s : Script α} (hs : s.Within base sees changes)
    (hbase : base.AgreeOn ∅ d) : d.AgreeOn changesᶜ (s.run d).2 := by
  induction s generalizing d with
  | done a => exact .refl _ d
  | ask request next ih =>
    have hstep := hs.1.answer_frame hbase
    have hlater := hbase.trans (hstep.mono (Set.empty_subset _))
    exact hstep.trans (ih _ (hs.2 _) hlater)

/-- What a run comes to depends on nothing but the places that the script sees. -/
theorem Within.run_agree {s : Script α} (hs : s.Within base sees changes)
    (hsub : changes ⊆ sees) (hbase : base.AgreeOn ∅ d) (h : d.AgreeOn sees d') :
    (s.run d).1 = (s.run d').1 ∧ (s.run d).2.AgreeOn sees (s.run d').2 := by
  induction s generalizing d d' with
  | done a => exact ⟨rfl, h⟩
  | ask request next ih =>
    obtain ⟨hreply, hafter⟩ := hs.1.answer_agree hsub hbase h
    have hstep := (hs.1.answer_frame hbase).mono (Set.empty_subset _)
    have hlater := ih (d.answer request).1 (hs.2 _) (hbase.trans hstep) hafter
    rw [run, run, ← hreply]
    exact hlater

end Script

end Jack
