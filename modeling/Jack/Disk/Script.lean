import Jack.Disk.Basic

/-!
Scripts: programs that work on a disk through requests, and decide what to ask next from the
answers. A script says nothing of how requests are answered. Here a `Disk` answers them, one
after the other, in `Script.run`; a script is as well a thing of which single steps can be
taken, with the steps of other scripts in between.
-/

namespace Jack

inductive Request
  | status (p : Path)
  | list (p : Path)
  | read (p : Path)
  | write (p : Path) (content : ByteArray)
  | rename (source target : Path)
  | remove (p : Path)
  | makeDir (p : Path)

abbrev Request.Reply : Request → Type
  | .status _ => Status
  | .list _ => Except Fault (List String)
  | .read _ => Except Fault ByteArray
  | .write _ _ | .rename _ _ | .remove _ | .makeDir _ => Except Fault Unit

inductive Script (α : Type) where
  | done (result : α)
  | ask (request : Request) (next : request.Reply → Script α)

namespace Script

variable {α β : Type}

def bind : Script α → (α → Script β) → Script β
  | .done result, f => f result
  | .ask request next, f => .ask request fun reply => (next reply).bind f

instance : Monad Script where
  pure := .done
  bind := bind

def request (r : Request) : Script r.Reply := .ask r .done

end Script

namespace Disk

/-- A change that fails leaves the disk as it was. -/
def change (d : Disk) : Except Fault Disk → Except Fault Unit × Disk
  | .ok d' => (.ok (), d')
  | .error fault => (.error fault, d)

def answer (d : Disk) : (r : Request) → r.Reply × Disk
  | .status p => (d.status p, d)
  | .list p => (d.list p, d)
  | .read p => (d.read p, d)
  | .write p content => d.change (d.write p content)
  | .rename source target => d.change (d.rename source target)
  | .remove p => d.change (d.remove p)
  | .makeDir p => d.change (d.makeDir p)

end Disk

namespace Script

variable {α β : Type}

def run : Script α → Disk → α × Disk
  | .done result, d => (result, d)
  | .ask request next, d => (next (d.answer request).1).run (d.answer request).2

theorem run_pure (a : α) (d : Disk) : (pure a : Script α).run d = (a, d) := rfl

theorem run_bind (s : Script α) (f : α → Script β) (d : Disk) :
    (s >>= f).run d = (f (s.run d).1).run (s.run d).2 := by
  induction s generalizing d with
  | done => rfl
  | ask request next ih => exact ih _ _

end Script

end Jack
