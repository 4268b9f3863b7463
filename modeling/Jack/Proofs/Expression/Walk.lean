import Jack.Proofs.Expression.Spelling
import Jack.Proofs.Grammar.Walk

/-! The rules for expressions as walks through the spellings of expressions. A name is taken
before it is known what it names, and the token behind it tells. -/

namespace Jack

open Reading Walk

/-! What each rule does, token by token. -/

/-- Behind the first name of a call: the name of the subroutine, if the first was a receiver. -/
def Call.walkTarget (construct : Construct) (first : String) : Walk (Option String × String) :=
  ifNext (.symbol .dot)
    (do
      let name ← walk (identifier construct "subroutine name")
      return (some first, name))
    (return (none, first))

def Call.walkBehind (construct : Construct) (first : String) : Walk Call := do
  let target ← Call.walkTarget construct first
  walk (symbol .leftParen construct)
  let arguments ← walk Expression.readList
  walk (symbol .rightParen construct)
  return ⟨target.1, target.2, arguments⟩

theorem Call.outcome_readTarget (construct : Construct) (first : String) (rest : List Token) :
    outcome (Call.readTarget construct (.identifier first :: rest)) =
      Call.walkTarget construct first rest := by
  by_cases hdot : ∃ after, rest = .symbol .dot :: after
  · obtain ⟨after, rfl⟩ := hdot
    rw [Call.walkTarget, ifNext_token]
    exact outcome_bind rfl fun _ => rfl
  · simp only [not_exists] at hdot
    rw [Call.walkTarget, ifNext_of_ne _ _ hdot, Call.readTarget]
    · rfl
    · rintro receiver after heq
      exact hdot after (List.cons.inj heq).2

theorem Call.outcome_read (construct : Construct) (first : String) (rest : List Token) :
    outcome (Call.read construct (.identifier first :: rest)) =
      Call.walkBehind construct first rest := by
  rw [Call.read]
  refine outcome_bind (Call.outcome_readTarget construct first rest) fun _ => ?_
  exact outcome_bind rfl fun _ => outcome_bind rfl fun _ => outcome_bind rfl fun _ => rfl

theorem Call.walk_read (construct : Construct) :
    walk (Call.read construct) = (do
      let first ← walk (identifier construct "subroutine, class or variable name")
      Call.walkBehind construct first) := by
  funext ts
  show outcome (Call.read construct ts) = _
  rcases ts with _ | ⟨_ | _ | _ | _ | name, rest⟩
  case cons.identifier => exact Call.outcome_read construct name rest
  all_goals
    rw [Call.read]
    rfl

def Term.walkBehind (name : String) : Walk Term :=
  ifNext (.symbol .leftBracket)
    (do
      let index ← walk Expression.read
      walk (symbol .rightBracket .term)
      return .element name index)
    (look fun next =>
      if next = some (.symbol .leftParen) ∨ next = some (.symbol .dot) then do
        let target ← Call.walkBehind .term name
        return .call target
      else
        return .variable name)

theorem Term.outcome_read_identifier (name : String) (rest : List Token) :
    outcome (Term.read (.identifier name :: rest)) = Term.walkBehind name rest := by
  by_cases hbracket : ∃ after, rest = .symbol .leftBracket :: after
  · obtain ⟨after, rfl⟩ := hbracket
    rw [Term.walkBehind, ifNext_token, Term.read]
    exact outcome_bind rfl fun _ => outcome_bind rfl fun _ => rfl
  · simp only [not_exists] at hbracket
    have hbegins : Call.begins (.identifier name :: rest) ↔
        rest.head? = some (.symbol .leftParen) ∨ rest.head? = some (.symbol .dot) := by
      rcases rest with _ | ⟨_ | s | _ | _ | _, after⟩ <;> simp [Call.begins]
    rw [Term.walkBehind, ifNext_of_ne _ _ hbracket, Term.read]
    · simp only [look, hbegins]
      split
      · exact outcome_bind (Call.outcome_read .term name rest) fun _ => rfl
      · rfl
    · exact hbracket

/-- The ways on from a token that begins a term, the parenthesis apart. -/
def Term.onward : Token → Option (Walk Term)
  | .integer value => some (return .integer value)
  | .string text => some (return .string text)
  | .keyword word => (Constant.ofKeyword? word).map fun value => return .constant value
  | .symbol s => (UnaryOp.ofSymbol? s).map fun op => do
    let operand ← walk Term.read
    return .unary op operand
  | .identifier name => some (Term.walkBehind name)

theorem Term.walk_read :
    walk Term.read = ifNext (.symbol .leftParen)
      (do
        let inner ← walk Expression.read
        walk (symbol .rightParen .term)
        return .parenthesized inner)
      (branch Term.onward (fail (.term, "a term"))) := by
  funext ts
  show outcome (Term.read ts) = _
  by_cases hparen : ∃ after, ts = .symbol .leftParen :: after
  · obtain ⟨after, rfl⟩ := hparen
    rw [ifNext_token, Term.read]
    exact outcome_bind rfl fun _ => outcome_bind rfl fun _ => rfl
  · simp only [not_exists] at hparen
    rw [ifNext_of_ne _ _ hparen]
    rcases ts with _ | ⟨word | s | value | text | name, rest⟩
    · rw [Term.read]
      rfl
    · rw [Term.read]
      simp only [branch, Term.onward]
      cases Constant.ofKeyword? word <;> rfl
    · rw [Term.read]
      · simp only [branch, Term.onward]
        cases UnaryOp.ofSymbol? s with
        | none => rfl
        | some op => exact outcome_bind rfl fun _ => rfl
      · rintro rfl
        exact hparen rest rfl
    · rw [Term.read]
      rfl
    · rw [Term.read]
      rfl
    · exact Term.outcome_read_identifier name rest

theorem Expression.walk_read :
    walk Expression.read = (do
      let first ← walk Term.read
      walk (Expression.readMore (.term first))) := by
  funext ts
  show outcome (Expression.read ts) = _
  rw [Expression.read]
  exact outcome_bind rfl fun _ => outcome_rewrap (fun _ => rfl) fun _ => rfl

theorem Expression.walk_readMore (left : Expression) :
    walk (Expression.readMore left) = branch
      (fun token => match token with
        | .symbol s => (BinaryOp.ofSymbol? s).map fun op => do
          let right ← walk Term.read
          walk (Expression.readMore (.binary left op right))
        | _ => none)
      (return left) := by
  funext ts
  show outcome (Expression.readMore left ts) = _
  by_cases hsymbol : ∃ s rest, ts = .symbol s :: rest
  · obtain ⟨s, rest, rfl⟩ := hsymbol
    rw [Expression.readMore]
    simp only [branch]
    cases BinaryOp.ofSymbol? s with
    | none => rfl
    | some op =>
      exact outcome_bind rfl fun _ => outcome_rewrap (fun _ => rfl) fun _ => rfl
  · simp only [not_exists] at hsymbol
    rw [Expression.readMore]
    · rcases ts with _ | ⟨_ | s | _ | _ | _, rest⟩ <;> first | rfl | exact absurd rfl (hsymbol _ _)
    · exact hsymbol

theorem Expression.begins_head (ts : List Token) :
    Expression.begins ts.head?.toList = Expression.begins ts := by
  rcases ts with _ | ⟨_ | _ | _ | _ | _, rest⟩ <;> rfl

theorem Expression.walk_readList :
    walk Expression.readList = look fun next =>
      if Expression.begins next.toList then do
        let first ← walk Expression.read
        let others ← walk Expression.readAfterCommas
        return first :: others
      else
        return [] := by
  funext ts
  show outcome (Expression.readList ts) = _
  rw [Expression.readList]
  simp only [look, Expression.begins_head]
  split
  · exact outcome_bind rfl fun _ => outcome_bind rfl fun _ => rfl
  · rfl

theorem Expression.walk_readAfterCommas :
    walk Expression.readAfterCommas = ifNext (.symbol .comma)
      (do
        let first ← walk Expression.read
        let others ← walk Expression.readAfterCommas
        return first :: others)
      (return []) := by
  funext ts
  show outcome (Expression.readAfterCommas ts) = _
  by_cases hcomma : ∃ after, ts = .symbol .comma :: after
  · obtain ⟨after, rfl⟩ := hcomma
    rw [ifNext_token, Expression.readAfterCommas]
    exact outcome_bind rfl fun _ => outcome_bind rfl fun _ => rfl
  · simp only [not_exists] at hcomma
    rw [ifNext_of_ne _ _ hcomma, Expression.readAfterCommas]
    · rfl
    · exact hcomma

/-! The languages of the rules. What stands behind a name or behind an expression is told by what
the whole is then. -/

abbrev Expression.language : Language Token := spellings Expression.tokens Set.univ

abbrev Term.language : Language Token := spellings Term.tokens Set.univ

abbrev Call.language : Language Token := spellings Call.tokens Set.univ

abbrev Expression.listLanguage : Language Token := spellings Expression.listTokens Set.univ

abbrev Expression.commaLanguage : Language Token := spellings Expression.commaTokens Set.univ

def Call.targetsBehind : Language Token :=
  {ts | ∀ first, ∃ receiver name, Call.targetTokens receiver name = .identifier first :: ts}

def Call.behind : Language Token := {ts | ∀ first, ∃ c : Call, c.tokens = .identifier first :: ts}

def Term.behind : Language Token := {ts | ∀ name, ∃ t : Term, t.tokens = .identifier name :: ts}

def Expression.behind : Language Token :=
  {ts | ∀ left : Expression, ∃ whole : Expression, whole.tokens = left.tokens ++ ts}

instance : Productive Term.language := ⟨_, .integer 0, trivial, rfl⟩

instance : Productive Expression.language := ⟨_, .term (.integer 0), trivial, rfl⟩

instance : Productive Expression.listLanguage := ⟨_, [], trivial, rfl⟩

instance : Productive Expression.commaLanguage := ⟨_, [], trivial, rfl⟩

instance : Productive Expression.behind := ⟨[], fun left => ⟨left, (List.append_nil _).symm⟩⟩

theorem Call.reads_target (construct : Construct) (first : String) (N : Nat) :
    (Call.walkTarget construct first).Reads N Call.targetsBehind := by
  refine .ifNext ((Reads.identifier _ _).bind fun _ => .pure _) ?_ (Reads.mono (.pure _) ?_)
  · rintro _ ⟨_, ⟨name, -, rfl⟩, _, rfl, rfl⟩ object
    exact ⟨some object, name, rfl⟩
  · rintro _ rfl name
    exact ⟨none, name, rfl⟩

mutual

theorem Call.reads_behind (construct : Construct) (first : String) (N : Nat) :
    (Call.walkBehind construct first).Reads N Call.behind := by
  have arguments := Expression.reads_list N
  refine ((Call.reads_target construct first N).bind fun _ =>
    (Reads.symbol _ _).bind fun _ => arguments.bind fun _ =>
      (Reads.symbol _ _).bind fun _ => .pure _).mono ?_
  rintro _ ⟨_, htarget, _, ⟨_, rfl, _, ⟨_, ⟨arguments, -, rfl⟩, _, ⟨_, rfl, _, rfl, rfl⟩, rfl⟩,
    rfl⟩, rfl⟩ first
  obtain ⟨receiver, name, hnames⟩ := htarget first
  refine ⟨⟨receiver, name, arguments⟩, ?_⟩
  rw [Call.tokens_mk, hnames]
  simp
termination_by (N, 4)

theorem Term.reads_behind (name : String) (N : Nat) :
    (Term.walkBehind name).Reads N Term.behind := by
  have target := Call.reads_behind .term name N
  cases N with
  | zero => exact .zero
  | succ N =>
  have index := Expression.reads N
  refine .ifNext (index.bind fun _ => (Reads.symbol _ _).bind fun _ => .pure _) ?_
    (.look fun next => ?_)
  · rintro _ ⟨_, ⟨index, -, rfl⟩, _, ⟨_, rfl, _, rfl, rfl⟩, rfl⟩ array
    exact ⟨.element array index, by simp [Term.tokens]⟩
  · split
    · refine (target.bind fun _ => .pure _).mono ?_
      rintro _ ⟨x, hx, _, rfl, rfl⟩ first
      obtain ⟨c, hc⟩ := hx first
      exact ⟨.call c, by simp [Term.tokens, hc]⟩
    · refine Reads.mono (.pure _) ?_
      rintro _ rfl first
      exact ⟨.variable first, rfl⟩
termination_by (N, 5)

theorem Term.reads (N : Nat) : (walk Term.read).Reads N Term.language := by
  cases N with
  | zero => exact .zero
  | succ N =>
  have inner := Expression.reads N
  have operand := Term.reads N
  rw [Term.walk_read]
  refine .ifNext (inner.bind fun _ => (Reads.symbol _ _).bind fun _ => .pure _) ?_
    (.branch (fun token next h => ?_) (.fail _))
  · rintro _ ⟨_, ⟨inner, -, rfl⟩, _, ⟨_, rfl, _, rfl, rfl⟩, rfl⟩
    exact ⟨.parenthesized inner, trivial, by simp [Term.tokens]⟩
  cases token with
  | integer value =>
    cases h
    refine ⟨1, .pure _, ?_⟩
    rintro _ rfl
    exact ⟨.integer value, trivial, rfl⟩
  | string text =>
    cases h
    refine ⟨1, .pure _, ?_⟩
    rintro _ rfl
    exact ⟨.string text, trivial, rfl⟩
  | keyword word =>
    obtain ⟨value, hvalue, rfl⟩ := Option.map_eq_some_iff.mp h
    refine ⟨1, .pure _, ?_⟩
    rintro _ rfl
    exact ⟨.constant value, trivial, by rw [Term.tokens, Constant.keyword_of_ofKeyword? hvalue]⟩
  | symbol s =>
    obtain ⟨op, hop, rfl⟩ := Option.map_eq_some_iff.mp h
    refine ⟨_, operand.bind fun _ => .pure _, ?_⟩
    rintro _ ⟨_, ⟨operand, -, rfl⟩, _, rfl, rfl⟩
    exact ⟨.unary op operand, trivial, by simp [Term.tokens, UnaryOp.symbol_of_ofSymbol? hop]⟩
  | identifier name =>
    cases h
    refine ⟨_, Term.reads_behind name N, ?_⟩
    intro ts hts
    obtain ⟨t, ht⟩ := hts name
    exact ⟨t, trivial, ht⟩
termination_by (N, 0)

theorem Expression.reads (N : Nat) : (walk Expression.read).Reads N Expression.language := by
  have first := Term.reads N
  rw [Expression.walk_read]
  refine (first.bind fun first => Expression.reads_more (.term first) N).mono ?_
  rintro _ ⟨_, ⟨first, -, rfl⟩, _, hmore, rfl⟩
  obtain ⟨whole, hwhole⟩ := hmore (.term first)
  exact ⟨whole, trivial, hwhole⟩
termination_by (N, 2)

theorem Expression.reads_more (left : Expression) (N : Nat) :
    (walk (Expression.readMore left)).Reads N Expression.behind := by
  cases N with
  | zero => exact .zero
  | succ N =>
  have right := Term.reads N
  rw [Expression.walk_readMore]
  refine .branch (fun token next h => ?_) (Reads.mono (.pure _) ?_)
  · cases token with
    | keyword word => cases h
    | integer value => cases h
    | string text => cases h
    | identifier name => cases h
    | symbol s =>
      obtain ⟨op, hop, rfl⟩ := Option.map_eq_some_iff.mp h
      refine ⟨_, right.bind fun right => Expression.reads_more (.binary left op right) N, ?_⟩
      rintro _ ⟨_, ⟨right, -, rfl⟩, x, hx, rfl⟩ left
      obtain ⟨whole, hwhole⟩ := hx (.binary left op right)
      refine ⟨whole, ?_⟩
      rw [hwhole, Expression.tokens, BinaryOp.symbol_of_ofSymbol? hop]
      simp
  · rintro _ rfl left
    exact ⟨left, (List.append_nil _).symm⟩
termination_by (N, 1)

theorem Expression.reads_list (N : Nat) :
    (walk Expression.readList).Reads N Expression.listLanguage := by
  have first := Expression.reads N
  have others := Expression.reads_afterCommas N
  rw [Expression.walk_readList]
  refine .look fun next => ?_
  split
  · refine (first.bind fun _ => others.bind fun _ => .pure _).mono ?_
    rintro _ ⟨_, ⟨first, -, rfl⟩, _, ⟨_, ⟨others, -, rfl⟩, _, rfl, rfl⟩, rfl⟩
    exact ⟨first :: others, trivial, by simp [Expression.listTokens]⟩
  · refine Reads.mono (.pure _) ?_
    rintro _ rfl
    exact ⟨[], trivial, rfl⟩
termination_by (N, 3)

theorem Expression.reads_afterCommas (N : Nat) :
    (walk Expression.readAfterCommas).Reads N Expression.commaLanguage := by
  cases N with
  | zero => exact .zero
  | succ N =>
  have first := Expression.reads N
  have others := Expression.reads_afterCommas N
  rw [Expression.walk_readAfterCommas]
  refine .ifNext (first.bind fun _ => others.bind fun _ => .pure _) ?_ (Reads.mono (.pure _) ?_)
  · rintro _ ⟨_, ⟨first, -, rfl⟩, _, ⟨_, ⟨others, -, rfl⟩, _, rfl, rfl⟩, rfl⟩
    exact ⟨first :: others, trivial, by simp [Expression.commaTokens]⟩
  · rintro _ rfl
    exact ⟨[], trivial, rfl⟩
termination_by (N, 0)

end

instance : Productive Call.behind := by
  refine ⟨[.symbol .leftParen, .symbol .rightParen], fun first => ⟨⟨none, first, []⟩, ?_⟩⟩
  simp [Call.tokens, Expression.listTokens]

instance : Productive Call.language := ⟨_, ⟨none, "", []⟩, trivial, rfl⟩

theorem Call.reads (construct : Construct) (N : Nat) :
    (walk (Call.read construct)).Reads N Call.language := by
  rw [Call.walk_read]
  refine ((Reads.identifier _ _).bind fun first => Call.reads_behind construct first N).mono ?_
  rintro _ ⟨_, ⟨first, -, rfl⟩, x, hx, rfl⟩
  obtain ⟨c, hc⟩ := hx first
  exact ⟨c, trivial, hc⟩

end Jack
