import Jack.Build.Error
import Jack.Disk.Script

/-!
Which files an input names: the input itself, or the source files directly inside it.
-/

namespace Jack

def sourceExtension : String := "jack"

namespace Path

def hasSourceExtension (p : Path) : Bool := p.extension == some sourceExtension

end Path

/-- A source is a regular file with the extension of sources. -/
def isSource (p : Path) : Script Bool := do
  let status ← .request (.status p)
  return status = .file && p.hasSourceExtension

def keepSources : List Path → Script (List Path)
  | [] => return []
  | p :: others => do
    let kept ← isSource p
    let rest ← keepSources others
    return if kept then p :: rest else rest

/-- The sources that an input names, in the order of their names. -/
def collectSources (input : Path) : Script (Except BuildError (List Path)) := do
  let status ← .request (.status input)
  if status = .directory then
    match ← .request (.list input) with
    | .error fault => return .error (.reading input fault)
    | .ok names =>
      let names := names.mergeSort fun a b => decide (a ≤ b)
      return .ok (← keepSources (names.map input.join))
  else if ← isSource input then
    return .ok [input]
  else
    return .error (.notSource input)

end Jack
