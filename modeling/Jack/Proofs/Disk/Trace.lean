import Jack.Disk.Script

/-! What scripts ask for. The requests of a run are those of its parts, one part after the other.
What a script can come to ask at all is bounded for all answers, so for the disk of any run. -/

namespace Jack

variable {α β : Type}

namespace Request

/-- The request looks at what there is, and neither reads nor changes it. -/
def Looks : Request → Prop
  | .status _ | .list _ => True
  | _ => False

/-- The files that the request reads. -/
def reads : Request → List Path
  | .read p => [p]
  | _ => []

theorem Looks.reads_eq_nil {r : Request} (h : r.Looks) : r.reads = [] := by
  cases r with
  | read p => exact h.elim
  | _ => rfl

end Request

namespace Script

/-- The requests of a run, in their order. -/
def trace : Script α → Disk → List Request
  | .done _, _ => []
  | .ask request next, d => request :: (next (d.answer request).1).trace (d.answer request).2

/-- The files that a run reads, in their order. -/
def reads (s : Script α) (d : Disk) : List Path := (s.trace d).flatMap Request.reads

/-- All requests that the script may come to make are of one kind. -/
def AsksOnly (kind : Request → Prop) : Script α → Prop
  | .done _ => True
  | .ask request next => kind request ∧ ∀ reply, (next reply).AsksOnly kind

theorem trace_bind (s : Script α) (f : α → Script β) (d : Disk) :
    (s >>= f).trace d = s.trace d ++ (f (s.run d).1).trace (s.run d).2 := by
  induction s generalizing d with
  | done a => rfl
  | ask request next ih => exact congrArg _ (ih _ _)

theorem reads_bind (s : Script α) (f : α → Script β) (d : Disk) :
    (s >>= f).reads d = s.reads d ++ (f (s.run d).1).reads (s.run d).2 := by
  rw [reads, trace_bind, List.flatMap_append]
  rfl

namespace AsksOnly

variable {kind kind' : Request → Prop} {s : Script α}

theorem mono (h : s.AsksOnly kind) (hkind : ∀ r, kind r → kind' r) : s.AsksOnly kind' := by
  induction s with
  | done a => trivial
  | ask request next ih => exact ⟨hkind _ h.1, fun reply => ih reply (h.2 reply)⟩

theorem bind {f : α → Script β} (h : s.AsksOnly kind) (hf : ∀ a, (f a).AsksOnly kind) :
    (s >>= f).AsksOnly kind := by
  induction s with
  | done a => exact hf a
  | ask request next ih => exact ⟨h.1, fun reply => ih reply (h.2 reply)⟩

theorem request {r : Request} (h : kind r) : (Script.request r).AsksOnly kind :=
  ⟨h, fun _ => trivial⟩

theorem of_mem_trace (h : s.AsksOnly kind) (d : Disk) : ∀ r ∈ s.trace d, kind r := by
  induction s generalizing d with
  | done a => exact nofun
  | ask request next ih =>
    rw [trace, List.forall_mem_cons]
    exact ⟨h.1, ih _ (h.2 _) _⟩

theorem reads_eq_nil (h : s.AsksOnly (·.reads = [])) (d : Disk) : s.reads d = [] :=
  List.flatMap_eq_nil_iff.mpr (h.of_mem_trace d)

end AsksOnly

end Script

end Jack
