import Jack.Token.Basic

/-!
Markup: trees of elements, written with two spaces of indentation a level and one line for
each tag. An element that holds a token stands on one line, with a space on either side of
the token's text.
-/

namespace Jack

inductive Element
  | terminal (token : Token)
  | node (tag : String) (children : List Element)
deriving Repr

namespace Element

/-- The name of the element for a kind of token. -/
def tokenTag : Token → String
  | .keyword _ => "keyword"
  | .symbol _ => "symbol"
  | .integer _ => "integerConstant"
  | .string _ => "stringConstant"
  | .identifier _ => "identifier"

def tokenText : Token → String
  | .keyword word => word.text
  | .symbol s => s.text
  | .integer value => toString value
  | .string text => text
  | .identifier name => name

/-- The three characters that markup claims for itself are written by name. -/
def escapeChar : Char → List Char
  | '<' => "&lt;".toList
  | '>' => "&gt;".toList
  | '&' => "&amp;".toList
  | c => [c]

def escape (text : String) : String :=
  String.ofList (text.toList.flatMap escapeChar)

def indentation (depth : Nat) : String :=
  String.ofList (List.replicate (2 * depth) ' ')

mutual

def lines (depth : Nat) : Element → List String
  | .terminal token =>
    let tag := tokenTag token
    [s!"{indentation depth}<{tag}> {escape (tokenText token)} </{tag}>"]
  | .node tag children =>
    s!"{indentation depth}<{tag}>" ::
      (listLines (depth + 1) children ++ [s!"{indentation depth}</{tag}>"])

def listLines (depth : Nat) : List Element → List String
  | [] => []
  | first :: others => first.lines depth ++ listLines depth others

end

/-- The lines of an element, with no newline after the last. -/
def text (e : Element) : String := "\n".intercalate (e.lines 0)

/-- A list of tokens as one element. -/
def ofTokens (tokens : List Token) : Element := .node "tokens" (tokens.map .terminal)

end Element

end Jack
