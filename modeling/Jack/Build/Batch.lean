import Jack.Build.Artifacts
import Jack.Build.Sources

/-!
Building all that an input names. The sources are collected and the directory for the
artifacts is made before the first source is compiled; then every source is compiled, each
in a job of its own; at the end the failures are counted.
-/

namespace Jack

/-- Makes a directory and those above it that are missing. -/
def makeDirs (p : Path) : Script (Except Fault Unit) :=
  if p.text = "" then return .ok ()
  else do
    match ← .request (.makeDir p) with
    | .ok () => return .ok ()
    | .error .notFound =>
      match above : p.parent with
      | none => return .error .notFound
      | some q =>
        have := Path.parent_length_lt above
        match ← makeDirs q with
        | .error fault => return .error fault
        | .ok () =>
          match ← .request (.makeDir p) with
          | .ok () => return .ok ()
          | .error fault => unlessDirectory p fault
    | .error fault => unlessDirectory p fault
termination_by p.text.length
where
  /-- A directory that is there already is as good as one just made. -/
  unlessDirectory (p : Path) (fault : Fault) : Script (Except Fault Unit) := do
    let status ← .request (.status p)
    return if status = .directory then .ok () else .error fault

namespace Batch

/-- The sources to compile, once everything is ready for their artifacts. -/
def prepare (o : Options) (input : Path) : Script (Except BuildError (List Path)) := do
  match ← collectSources input with
  | .error e => return .error e
  | .ok [] => return .error (.noSources input)
  | .ok sources =>
    match o.outDir with
    | none => return .ok sources
    | some dir =>
      match ← makeDirs dir with
      | .error fault => return .error (.creating dir fault)
      | .ok () => return .ok sources

/-- What came of the jobs, in the order of the sources. -/
structure Report where
  outcome : Except BuildError (List Path)
  logged : List BuildError

def failures (results : List (Except BuildError Path)) : List BuildError :=
  results.filterMap fun
    | .error e => some e
    | .ok _ => none

def successes (results : List (Except BuildError Path)) : List Path :=
  results.filterMap Except.toOption

def report (results : List (Except BuildError Path)) : Report where
  logged := failures results
  outcome :=
    if failures results = [] then .ok (successes results)
    else .error (.filesFailed (failures results).length results.length)

/-- The jobs one after the other. -/
def inOrder {α : Type} : List (Script α) → Script (List α)
  | [] => return []
  | job :: others => do
    let first ← job
    let rest ← inOrder others
    return first :: rest

end Batch

def build (o : Options) (input : Path) : Script Batch.Report := do
  match ← Batch.prepare o input with
  | .error e => return ⟨.error e, []⟩
  | .ok sources => return Batch.report (← Batch.inOrder (sources.map (compileFile o)))

end Jack
