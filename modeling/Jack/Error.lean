import Jack.Token.Scan
import Jack.Grammar.Construct

/-!
Every way in which compiling one class can fail, by cause. The wording is `message`.
-/

namespace Jack

inductive CompileError
  | lexical (error : LexicalError)
  /-- The text is no class; `found` is the token that does not fit, or `none` at the end. -/
  | grammatical (line : Nat) (construct : Construct) (expected : String) (found : Option Token)
  | undefined (name : String)
  | duplicate (name : String)
deriving DecidableEq, Repr

def CompileError.message : CompileError → String
  | lexical error => s!"line {error.line}: {error.fault.message}"
  | grammatical line construct expected found =>
    let found := (found.map Token.description).getD "end of file"
    s!"line {line}: syntax error in {construct.name}: expected {expected}, found {found}"
  | undefined name => s!"undefined identifier '{name}'"
  | duplicate name => s!"identifier '{name}' is declared twice in the same scope"

end Jack
