import Jack.Build.Artifacts

/-!
The command line: one input, the options `--xml` and `--tokens`, and `--out-dir` with a value,
in any order, each at most once. Arguments are read from left to right, and the first that
asks for help or is wrong decides.
-/

namespace Jack

structure Invocation where
  input : Path
  options : Options
deriving DecidableEq, Repr

/-- Why the command line does not ask for a build. -/
inductive Refusal
  | help
  | unknownOption (argument : String)
  | unexpectedValue (argument : String)
  | missingValue
  | repeated (option : String)
  | emptyValue
  | extraInput (argument : String)
  | missingInput
deriving DecidableEq, Repr

namespace CommandLine

/-- What the arguments read so far have set. -/
structure Settings where
  input : Option Path := none
  options : Options := {}
deriving DecidableEq, Repr

/-- An argument of a dash alone is not an option. -/
def isOption (argument : String) : Bool :=
  match argument.toList with
  | '-' :: _ :: _ => true
  | _ => false

def setInput (s : Settings) (argument : String) : Except Refusal Settings :=
  if s.input.isSome then .error (.extraInput argument)
  else if argument = "" then .error .emptyValue
  else .ok { s with input := some ⟨argument⟩ }

def setOutDir (s : Settings) (dir : String) : Except Refusal Settings :=
  if s.options.outDir.isSome then .error (.repeated "--out-dir")
  else if dir = "" then .error .emptyValue
  else .ok { s with options.outDir := some ⟨dir⟩ }

def setXml (s : Settings) : Except Refusal Settings :=
  if s.options.xml then .error (.repeated "--xml")
  else .ok { s with options.xml := true }

def setTokens (s : Settings) : Except Refusal Settings :=
  if s.options.tokens then .error (.repeated "--tokens")
  else .ok { s with options.tokens := true }

/-- The name of an option and the value written after an equals sign, if there is one. -/
def splitOption (argument : String) : String × Option String :=
  let name := argument.toList.takeWhile (· != '=')
  match argument.toList.drop name.length with
  | _ :: value => (String.ofList name, some (String.ofList value))
  | [] => (argument, none)

/-- An option that holds all it needs; a single dash asks for help with `h` after it. -/
def setOption (s : Settings) (argument : String) : Except Refusal Settings :=
  match splitOption argument with
  | ("--help", none) => .error .help
  | ("--xml", none) => setXml s
  | ("--tokens", none) => setTokens s
  | ("--out-dir", some dir) => setOutDir s dir
  | (name, some _) =>
    if name ∈ ["--help", "--xml", "--tokens"] then .error (.unexpectedValue argument)
    else if argument.toList.take 2 = ['-', 'h'] then .error .help
    else .error (.unknownOption argument)
  | (_, none) =>
    if argument.toList.take 2 = ['-', 'h'] then .error .help
    else .error (.unknownOption argument)

def readInputs (s : Settings) : List String → Except Refusal Settings
  | [] => .ok s
  | argument :: rest => do
    let s ← setInput s argument
    readInputs s rest

def read (s : Settings) : List String → Except Refusal Settings
  | [] => .ok s
  | "--" :: rest => readInputs s rest
  | "--out-dir" :: rest =>
    match rest with
    | [] => .error .missingValue
    | dir :: rest =>
      if isOption dir then .error .missingValue
      else do
        let s ← setOutDir s dir
        read s rest
  | argument :: rest => do
    let s ← if isOption argument then setOption s argument else setInput s argument
    read s rest

def parse (arguments : List String) : Except Refusal Invocation := do
  let s ← read {} arguments
  match s.input with
  | some input => return ⟨input, s.options⟩
  | none => .error .missingInput

end CommandLine

end Jack
