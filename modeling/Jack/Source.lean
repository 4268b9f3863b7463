import Jack.Class.Code
import Jack.Class.Grammar
import Jack.Class.Markup
import Jack.Grammar.Cursor

/-!
From the text of a source file to its tokens, its class, its markup and its program.
Cutting the text into tokens is a pass of its own, so a lexical fault anywhere in the text
comes before any fault of grammar, and a fault of grammar before any undeclared name.
-/

namespace Jack

/-- The class that a list of located tokens spells. -/
def Class.ofTokens (tokens : List Located) : Except CompileError Class :=
  (Cursor.run Class.readFile ⟨tokens, 1⟩).1

namespace Source

def tokens (text : String) : Except CompileError (List Located) :=
  (Located.ofText text).mapError .lexical

def parse (text : String) : Except CompileError Class := do
  Class.ofTokens (← tokens text)

def compile (text : String) : Except CompileError Program := do
  (← parse text).code

def tokensMarkup (tokens : List Located) : Element :=
  Element.ofTokens (tokens.map (·.token))

end Source

end Jack
