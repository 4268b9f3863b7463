import Jack.Source

/-!
What a compilation reports on its way. The reports are those of the stages that were reached:
a subroutine is reported once its declarations are accepted, whether or not its statements
compile.
-/

namespace Jack

inductive LogLevel
  | trace | debug
deriving DecidableEq, Repr

inductive LogEvent
  | tokenized (tokens lines : Nat)
  | parsed (className : String) (subroutines : Nat)
  | compiling (subroutine : String)
deriving DecidableEq, Repr

namespace LogEvent

def level : LogEvent → LogLevel
  | tokenized _ _ => .trace
  | parsed _ _ => .debug
  | compiling _ => .trace

def message : LogEvent → String
  | tokenized tokens lines => s!"tokenized {tokens} tokens over {lines} lines"
  | parsed name subroutines => s!"parsed class {name} ({subroutines} subroutines)"
  | compiling subroutine => s!"compiling {subroutine}"

end LogEvent

/-- The subroutines whose statements are reached: all up to the first that does not compile,
and that one too if only its statements are at fault. -/
def Subroutine.reached (outer : Scope) : List Subroutine → List Subroutine
  | [] => []
  | first :: others =>
    match first.scope outer, first.code outer 0 with
    | .error _, _ => []
    | .ok _, .error _ => [first]
    | .ok _, .ok _ => first :: Subroutine.reached outer others

def Class.events (c : Class) : List LogEvent :=
  match c.scope with
  | .error _ => []
  | .ok scope =>
    (Subroutine.reached scope c.subroutines).map fun s => .compiling s!"{c.name}.{s.name}"

def Source.events (text : String) : List LogEvent :=
  match Source.tokens text with
  | .error _ => []
  | .ok tokens =>
    .tokenized tokens.length (1 + text.toList.count '\n') ::
      match Class.ofTokens tokens with
      | .error _ => []
      | .ok c => .parsed c.name c.subroutines.length :: c.events

end Jack
