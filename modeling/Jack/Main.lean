import Jack.Build.Batch
import Jack.CommandLine

/-!
The program `jackc`. Requests are answered by the disk of the machine, and the jobs of a
batch run side by side; their results are taken in the order of the sources.
-/

namespace Jack.Main

/-- The fault behind a failed system call, told by the number of the error. -/
def faultOf (e : IO.Error) : Fault :=
  let byNumber (number : UInt32) : Fault :=
    match number with
    | 2 => .notFound
    | 17 => .alreadyExists
    | 20 => .notDirectory
    | 21 => .isDirectory
    | _ => .unknown (toString e)
  match e with
  | .noFileOrDirectory _ number _ => byNumber number
  | .noSuchThing _ number _ => byNumber number
  | .alreadyExists _ number _ => byNumber number
  | .inappropriateType _ number _ => byNumber number
  | _ => .unknown (toString e)

def faulty {α : Type} (action : IO α) : IO (Except Fault α) := do
  try return .ok (← action)
  catch e => return .error (faultOf e)

def statusOf (p : Path) : IO Status := do
  try
    let found ← (← IO.FS.realPath p.text).metadata
    match found.type with
    | .dir => return .directory
    | .file => return .file
    | _ => return .absent
  catch _ => return .absent

def answer : (r : Request) → IO r.Reply
  | .status p => statusOf p
  | .list p => faulty do
    return (← (← IO.FS.realPath p.text).readDir).toList.map (·.fileName)
  | .read p => faulty (IO.FS.readBinFile p.text)
  | .write p content => faulty (IO.FS.writeBinFile p.text content)
  | .rename source target => faulty (IO.FS.rename source.text target.text)
  | .remove p => faulty (IO.FS.removeFile p.text)
  | .makeDir p => faulty (IO.FS.createDir p.text)

def perform {α : Type} : Script α → IO α
  | .done result => pure result
  | .ask request next => do perform (next (← answer request))

def compileAll (o : Options) (sources : List Path) : IO Batch.Report := do
  let jobs ← sources.mapM fun source => IO.asTask (perform (compileFile o source))
  return Batch.report (← jobs.mapM fun job => IO.ofExcept job.get)

def usage : String :=
  "\n".intercalate
    ["Compile Jack classes to VM code", "",
      "Usage: jackc [OPTIONS] <input>", "",
      "Arguments:",
      "  <input>  A .jack file or a directory of .jack files", "",
      "Options:",
      "      --xml            Also write the parse tree as <Name>.xml",
      "      --tokens         Also write the token list as <Name>T.xml",
      "      --out-dir <DIR>  Write outputs to DIR instead of next to the sources",
      "  -h, --help           Print help"]

def complaint : Refusal → String
  | .help => usage
  | .unknownOption argument => s!"unexpected argument '{argument}' found"
  | .unexpectedValue argument => s!"unexpected value in '{argument}'"
  | .missingValue => "a value is required for '--out-dir <DIR>' but none was supplied"
  | .repeated option => s!"the argument '{option}' cannot be used multiple times"
  | .emptyValue => "an empty value is not allowed"
  | .extraInput argument => s!"unexpected argument '{argument}' found"
  | .missingInput => "the input is missing"

def reportFailure (e : BuildError) : IO UInt32 := do
  IO.eprintln s!"Error: {e.headline}"
  if let some cause := e.cause then
    IO.eprintln s!"\nCaused by:\n    {cause}"
  return 1

def compile (invocation : Invocation) : IO UInt32 := do
  match ← perform (Batch.prepare invocation.options invocation.input) with
  | .error e => reportFailure e
  | .ok sources =>
    let report ← compileAll invocation.options sources
    for e in report.logged do
      IO.eprintln s!"error: {e.message}"
    match report.outcome with
    | .ok _ => return 0
    | .error e => reportFailure e

end Jack.Main

def main (arguments : List String) : IO UInt32 := do
  match Jack.CommandLine.parse arguments with
  | .ok invocation => Jack.Main.compile invocation
  | .error .help => IO.println Jack.Main.usage; return 0
  | .error refusal => IO.eprintln s!"error: {Jack.Main.complaint refusal}"; return 2
