import Jack.Build.Error
import Jack.Disk.Script
import Jack.Source

/-!
What is made from one source file, and how it is put on disk. Each artifact is first written
to a path of its own beside its place; only when all of them are written are they moved
there. A failure on the way removes everything that was written or moved until then.
-/

namespace Jack

structure Options where
  /-- Also write the parse tree. -/
  xml : Bool := false
  /-- Also write the list of tokens. -/
  tokens : Bool := false
  /-- Where artifacts go, if not beside their source. -/
  outDir : Option Path := none
deriving DecidableEq, Repr

/-- The path of an artifact: the name of the source with another ending. -/
def outputPath (source : Path) (outDir : Option Path) (suffix extension : String) : Path :=
  let dir := outDir.getD (source.parent.getD ⟨""⟩)
  dir.join (source.stem.getD "" ++ suffix ++ "." ++ extension)

structure Artifact where
  place : Path
  content : ByteArray

/-- Where an artifact is written before it is moved to its place. -/
def stagingPath (place : Path) : Path := ⟨place.text ++ ".tmp"⟩

/-- The program comes first, then the parse tree, then the tokens. -/
def artifacts (o : Options) (source : Path) (text : String) :
    Except CompileError (List Artifact) := do
  let tokens ← Source.tokens text
  let tree ← Class.ofTokens tokens
  let program ← tree.code
  let artifact (suffix extension content : String) : Artifact :=
    ⟨outputPath source o.outDir suffix extension, content.toUTF8⟩
  return [artifact "" "vm" program.text] ++
    (if o.xml then [artifact "" "xml" tree.markup.text] else []) ++
    (if o.tokens then [artifact "T" "xml" (Source.tokensMarkup tokens).text] else [])

/-- One step of putting artifacts on disk. -/
inductive Installation
  | stage (a : Artifact)
  | place (a : Artifact)

namespace Installation

/-- The path that a step fills. -/
def target : Installation → Path
  | stage a => stagingPath a.place
  | place a => a.place

def attempt : Installation → Script (Except Fault Unit)
  | stage a => .request (.write (stagingPath a.place) a.content)
  | place a => .request (.rename (stagingPath a.place) a.place)

/-- Removes what can be removed. -/
def removeAll : List Path → Script Unit
  | [] => return
  | p :: others => do
    let _ ← .request (.remove p)
    removeAll others

/-- Takes the steps in order; `filled` holds the paths that earlier steps filled. -/
def runSteps (filled : List Path) : List Installation → Script (Except BuildError Unit)
  | [] => return .ok ()
  | step :: others => do
    match ← step.attempt with
    | .ok () => runSteps (filled ++ [step.target]) others
    | .error fault =>
      removeAll filled
      return .error (.writing step.target fault)

end Installation

def install (made : List Artifact) : Script (Except BuildError Unit) :=
  Installation.runSteps [] (made.map .stage ++ made.map .place)

/-- The text of a source, or why it cannot be read. -/
def readSource (source : Path) : Script (Except BuildError String) := do
  match ← .request (.read source) with
  | .error fault => return .error (.reading source fault)
  | .ok content =>
    match String.fromUTF8? content with
    | none => return .error (.reading source .notText)
    | some text => return .ok text

/-- Compiles one source and answers with the path of its program. -/
def compileFile (o : Options) (source : Path) : Script (Except BuildError Path) := do
  match ← readSource source with
  | .error e => return .error e
  | .ok text =>
    match artifacts o source text with
    | .error e => return .error (.compiling source e)
    | .ok made =>
      match ← install made with
      | .error e => return .error e
      | .ok () => return .ok (outputPath source o.outDir "" "vm")

end Jack
