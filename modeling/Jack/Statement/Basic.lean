import Jack.Expression.Basic

/-!
Statements. The parts of a conditional and of a loop are lists of statements; an `else` with
nothing in it is not the same statement as no `else`.
-/

namespace Jack

inductive Statement
  | «let» (target : String) (index : Option Expression) (value : Expression)
  | «if» (condition : Expression) (thenBody : List Statement) (elseBody : Option (List Statement))
  | «while» (condition : Expression) (body : List Statement)
  | «do» (target : Call)
  | «return» (value : Option Expression)
deriving Repr

end Jack
