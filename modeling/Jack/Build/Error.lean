import Jack.Disk.Basic
import Jack.Error

/-!
How building fails: what was done and why it could not be, by cause.
-/

namespace Jack

inductive BuildError
  | reading (p : Path) (fault : Fault)
  | writing (p : Path) (fault : Fault)
  | creating (p : Path) (fault : Fault)
  | compiling (source : Path) (error : CompileError)
  | notSource (input : Path)
  | noSources (input : Path)
  | filesFailed (failed total : Nat)
deriving DecidableEq, Repr

namespace BuildError

/-- What was being done, or the whole message where there is nothing beneath it. -/
def headline : BuildError → String
  | reading p _ => s!"reading {p.text}"
  | writing p _ => s!"writing {p.text}"
  | creating p _ => s!"creating {p.text}"
  | compiling source _ => source.text
  | notSource input => s!"{input.text} is neither a .jack file nor a directory"
  | noSources input => s!"no .jack files in {input.text}"
  | filesFailed failed total => s!"{failed} of {total} files failed to compile"

def cause : BuildError → Option String
  | reading _ fault | writing _ fault | creating _ fault => some fault.message
  | compiling _ error => some error.message
  | notSource _ | noSources _ | filesFailed _ _ => none

def message (e : BuildError) : String :=
  match e.cause with
  | some cause => s!"{e.headline}: {cause}"
  | none => e.headline

end BuildError

end Jack
