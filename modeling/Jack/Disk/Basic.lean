import Jack.Path

/-!
A disk of directories and regular files. Places on it are lists of names from the root, which
is always a directory. A path is resolved from the working directory, or from the root if it
begins with a slash; all but its last piece must name directories. Every operation answers
for all paths, with a fault where it cannot be done.
-/

namespace Jack

inductive Fault
  | notFound | alreadyExists | notDirectory | isDirectory | notText
  /-- Whatever else a real disk may report. -/
  | unknown (report : String)
deriving DecidableEq, Repr

def Fault.message : Fault → String
  | notFound => "No such file or directory (os error 2)"
  | alreadyExists => "File exists (os error 17)"
  | notDirectory => "Not a directory (os error 20)"
  | isDirectory => "Is a directory (os error 21)"
  | notText => "stream did not contain valid UTF-8"
  | unknown report => report

/-- The names of the directories on the way from the root, and the last name. -/
abbrev Location := List String

inductive Entry
  | file (content : ByteArray)
  | directory

inductive Status
  | file | directory | absent
deriving DecidableEq, Repr

structure Disk where
  entries : List (Location × Entry)
  /-- The working directory. -/
  here : Location

namespace Disk

def get? (d : Disk) (l : Location) : Option Entry :=
  if l = [] then some .directory else d.entries.lookup l

def erase (d : Disk) (l : Location) : Disk :=
  { d with entries := d.entries.filter (·.1 ≠ l) }

def put (d : Disk) (l : Location) (e : Entry) : Disk :=
  { d with entries := (d.erase l).entries ++ [(l, e)] }

theorem get?_erase (d : Disk) (l l' : Location) :
    (d.erase l).get? l' =
      if l' = [] then some .directory else if l' = l then none else d.get? l' := by
  unfold get? erase
  by_cases root : l' = []
  · simp [root]
  · simp only [root, if_false]
    induction d.entries with
    | nil => simp
    | cons e rest ih =>
      obtain ⟨place, entry⟩ := e
      by_cases same : place = l
      · subst same
        by_cases h : l' = place
        · simpa [h] using ih
        · have apart : (l' == place) = false := by simpa using h
          simpa [h, apart, List.lookup_cons] using ih
      · by_cases h : l' = place
        · have kept : ¬l' = l := h ▸ same
          simp [h, same]
        · have apart : (l' == place) = false := by simpa using h
          simpa [same, apart, List.lookup_cons] using ih

theorem get?_put (d : Disk) (l l' : Location) (e : Entry) :
    (d.put l e).get? l' =
      if l' = [] then some .directory else if l' = l then some e else d.get? l' := by
  have erased := get?_erase d l l'
  unfold get? at erased ⊢
  unfold put
  by_cases root : l' = []
  · simp [root]
  · simp only [root, if_false] at erased ⊢
    rw [List.lookup_append, erased]
    by_cases h : l' = l
    · simp [h]
    · have apart : (l' == l) = false := by simpa using h
      simp [h, apart, List.lookup_cons]
/-- The names directly inside a directory, in no particular order. -/
def children (d : Disk) (l : Location) : List String :=
  d.entries.filterMap fun (place, _) =>
    if place.dropLast = l then place.getLast? else none

/-- Goes from a directory through the directories that the pieces name. -/
def walk (d : Disk) (start : Location) : List String → Except Fault Location
  | [] => .ok start
  | piece :: rest =>
    if piece = "" ∨ piece = "." then d.walk start rest
    else if piece = ".." then d.walk start.dropLast rest
    else
      match d.get? (start ++ [piece]) with
      | some .directory => d.walk (start ++ [piece]) rest
      | some (.file _) => .error .notDirectory
      | none => .error .notFound

/-- The place that a last piece means in a directory. -/
def step (dir : Location) (piece : String) : Location :=
  if piece = "" ∨ piece = "." then dir
  else if piece = ".." then dir.dropLast
  else dir ++ [piece]

/-- The place that a path means, whether or not anything is there. -/
def resolve (d : Disk) (p : Path) : Except Fault Location :=
  if p.text = "" then .error .notFound
  else do
    let dir ← d.walk (if p.isAbsolute then [] else d.here) p.pieces.dropLast
    return step dir (p.pieces.getLast?.getD "")

def status (d : Disk) (p : Path) : Status :=
  match d.resolve p with
  | .error _ => .absent
  | .ok l =>
    match d.get? l with
    | some (.file _) => .file
    | some .directory => .directory
    | none => .absent

def list (d : Disk) (p : Path) : Except Fault (List String) := do
  let l ← d.resolve p
  match d.get? l with
  | some .directory => .ok (d.children l)
  | some (.file _) => .error .notDirectory
  | none => .error .notFound

def read (d : Disk) (p : Path) : Except Fault ByteArray := do
  let l ← d.resolve p
  match d.get? l with
  | some (.file content) => .ok content
  | some .directory => .error .isDirectory
  | none => .error .notFound

/-- Makes a file, or replaces the content of one. -/
def write (d : Disk) (p : Path) (content : ByteArray) : Except Fault Disk := do
  let l ← d.resolve p
  match d.get? l with
  | some .directory => .error .isDirectory
  | _ => .ok (d.put l (.file content))

/-- Moves a file, in place of one that may be at the target. -/
def rename (d : Disk) (source target : Path) : Except Fault Disk := do
  let origin ← d.resolve source
  let goal ← d.resolve target
  match d.get? origin, d.get? goal with
  | none, _ => .error .notFound
  | some .directory, _ | _, some .directory => .error .isDirectory
  | some moved, _ => .ok ((d.erase origin).put goal moved)

def remove (d : Disk) (p : Path) : Except Fault Disk := do
  let l ← d.resolve p
  match d.get? l with
  | some (.file _) => .ok (d.erase l)
  | some .directory => .error .isDirectory
  | none => .error .notFound

/-- The pieces of a path without the empty ones at its end. -/
def namedPieces (p : Path) : List String :=
  (p.pieces.reverse.dropWhile (· == "")).reverse

def makeDir (d : Disk) (p : Path) : Except Fault Disk :=
  if p.text = "" then .error .notFound
  else do
    let pieces := namedPieces p
    let dir ← d.walk (if p.isAbsolute then [] else d.here) pieces.dropLast
    match pieces.getLast? with
    | none => .error .alreadyExists
    | some name =>
      if name = "." ∨ name = ".." then .error .alreadyExists
      else
        match d.get? (dir ++ [name]) with
        | some _ => .error .alreadyExists
        | none => .ok (d.put (dir ++ [name]) .directory)

end Disk

end Jack
