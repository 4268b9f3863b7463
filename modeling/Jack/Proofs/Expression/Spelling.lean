import Jack.Expression.Grammar
import Jack.Proofs.Grammar.Reading

/-! The tokens that spell an expression, and the proof that the rules for expressions read these
and no others. A term is read to its end if what follows cannot continue it: a bracket, a
parenthesis or a dot would continue a name, and an operator would continue an expression. -/

namespace Jack

open Reading

mutual

def Expression.tokens : Expression → List Token
  | .term value => value.tokens
  | .binary left op right => left.tokens ++ .symbol op.symbol :: right.tokens

def Term.tokens : Term → List Token
  | .integer value => [.integer value]
  | .string text => [.string text]
  | .constant value => [.keyword value.keyword]
  | .variable name => [.identifier name]
  | .element array index =>
    .identifier array :: .symbol .leftBracket :: index.tokens ++ [.symbol .rightBracket]
  | .parenthesized inner => .symbol .leftParen :: inner.tokens ++ [.symbol .rightParen]
  | .unary op operand => .symbol op.symbol :: operand.tokens
  | .call target => target.tokens

def Call.tokens : Call → List Token
  | .mk none name arguments =>
    .identifier name :: .symbol .leftParen :: Expression.listTokens arguments ++
      [.symbol .rightParen]
  | .mk (some receiver) name arguments =>
    .identifier receiver :: .symbol .dot :: .identifier name :: .symbol .leftParen ::
      Expression.listTokens arguments ++ [.symbol .rightParen]

def Expression.listTokens : List Expression → List Token
  | [] => []
  | first :: others => first.tokens ++ Expression.commaTokens others

/-- The tokens of the expressions after the first, each with its comma. -/
def Expression.commaTokens : List Expression → List Token
  | [] => []
  | first :: others => .symbol .comma :: first.tokens ++ Expression.commaTokens others

end

/-- What stands in front of the parenthesis that opens the arguments of a call. -/
def Call.targetTokens : Option String → String → List Token
  | none, name => [.identifier name]
  | some receiver, name => [.identifier receiver, .symbol .dot, .identifier name]

theorem Call.tokens_mk (receiver : Option String) (name : String) (arguments : List Expression) :
    (Call.mk receiver name arguments).tokens =
      Call.targetTokens receiver name ++ .symbol .leftParen ::
        (Expression.listTokens arguments ++ [.symbol .rightParen]) := by
  cases receiver <;> rw [Call.tokens] <;> rfl

theorem Call.spelled_of_readTarget {construct : Construct} {ts : List Token}
    {target : Option String × String} {rest : List Token}
    (h : (Call.readTarget construct ts).Gives target rest) :
    ts = Call.targetTokens target.1 target.2 ++ rest := by
  unfold Call.readTarget at h
  split at h
  · obtain ⟨name, left, _, hname, h⟩ := h.exists_of_bind
    obtain ⟨rfl, rfl⟩ : (some _, name) = target ∧ left = rest := gives_ok_iff.mp h
    rw [gives_identifier_iff.mp hname]
    rfl
  · obtain ⟨name, left, _, hname, h⟩ := h.exists_of_bind
    obtain ⟨rfl, rfl⟩ : (none, name) = target ∧ left = rest := gives_ok_iff.mp h
    exact gives_identifier_iff.mp hname

/-- The ways to read a term, each told by the tokens at its front and by what its parts are read
from. -/
inductive Term.ReadFrom : List Token → Term → List Token → Prop
  | integer (value : UInt32) (rest : List Token) :
      ReadFrom (.integer value :: rest) (.integer value) rest
  | string (text : String) (rest : List Token) :
      ReadFrom (.string text :: rest) (.string text) rest
  | constant (value : Constant) (rest : List Token) :
      ReadFrom (.keyword value.keyword :: rest) (.constant value) rest
  | variable (name : String) (rest : List Token) :
      ReadFrom (.identifier name :: rest) (.variable name) rest
  | element (array : String) {index : Expression} {after rest : List Token}
      (hindex : (Expression.read after).Gives index (.symbol .rightBracket :: rest)) :
      ReadFrom (.identifier array :: .symbol .leftBracket :: after) (.element array index) rest
  | parenthesized {inner : Expression} {after rest : List Token}
      (hinner : (Expression.read after).Gives inner (.symbol .rightParen :: rest)) :
      ReadFrom (.symbol .leftParen :: after) (.parenthesized inner) rest
  | unary (op : UnaryOp) {operand : Term} {after rest : List Token}
      (hoperand : (Term.read after).Gives operand rest) :
      ReadFrom (.symbol op.symbol :: after) (.unary op operand) rest
  | call {target : Call} {ts rest : List Token}
      (htarget : (Call.read .term ts).Gives target rest) : ReadFrom ts (.call target) rest

theorem Term.readFrom_of_read {ts : List Token} {t : Term} {rest : List Token}
    (h : (Term.read ts).Gives t rest) : Term.ReadFrom ts t rest := by
  unfold Term.read at h
  split at h
  · obtain ⟨rfl, rfl⟩ := gives_done_iff.mp h
    exact .integer _ _
  · obtain ⟨rfl, rfl⟩ := gives_done_iff.mp h
    exact .string _ _
  · split at h
    · next value hvalue =>
      obtain ⟨rfl, rfl⟩ := gives_done_iff.mp h
      rw [← Constant.keyword_of_ofKeyword? hvalue]
      exact .constant value _
    · exact absurd h not_gives_unexpected
  · obtain ⟨inner, left, _, hinner, h⟩ := h.exists_of_bind
    obtain ⟨⟨⟩, left', _, hclose, h⟩ := h.exists_of_bind
    obtain ⟨rfl, rfl⟩ : Term.parenthesized inner = t ∧ left' = rest := gives_ok_iff.mp h
    have hleft : left = .symbol .rightParen :: left' := gives_symbol_iff.mp hclose
    subst hleft
    exact .parenthesized hinner
  · split at h
    · next op hop =>
      obtain ⟨operand, left, _, hoperand, h⟩ := h.exists_of_bind
      obtain ⟨rfl, rfl⟩ : Term.unary op operand = t ∧ left = rest := gives_ok_iff.mp h
      rw [← UnaryOp.symbol_of_ofSymbol? hop]
      exact .unary op hoperand
    · exact absurd h not_gives_unexpected
  · obtain ⟨index, left, _, hindex, h⟩ := h.exists_of_bind
    obtain ⟨⟨⟩, left', _, hclose, h⟩ := h.exists_of_bind
    obtain ⟨rfl, rfl⟩ : Term.element _ index = t ∧ left' = rest := gives_ok_iff.mp h
    have hleft : left = .symbol .rightBracket :: left' := gives_symbol_iff.mp hclose
    subst hleft
    exact .element _ hindex
  · split at h
    · obtain ⟨target, left, _, htarget, h⟩ := h.exists_of_bind
      obtain ⟨rfl, rfl⟩ : Term.call target = t ∧ left = rest := gives_ok_iff.mp h
      exact .call htarget
    · obtain ⟨rfl, rfl⟩ := gives_done_iff.mp h
      exact .variable _ _
  · exact absurd h not_gives_unexpected

/-- An expression goes on behind `left` only with an operator and a term. -/
theorem Expression.readMore_cases {left : Expression} {ts : List Token} {e : Expression}
    {rest : List Token} (h : (Expression.readMore left ts).Gives e rest) :
    (e = left ∧ ts = rest) ∨
      ∃ (op : BinaryOp) (right : Term) (after behind : List Token),
        ts = .symbol op.symbol :: after ∧ (Term.read after).Gives right behind ∧
          (Expression.readMore (.binary left op right) behind).Gives e rest := by
  unfold Expression.readMore at h
  split at h
  · split at h
    · next op hop =>
      obtain ⟨right, behind, _, hright, h⟩ := h.exists_of_bind
      obtain ⟨whole, left', _, hwhole, h⟩ := h.exists_of_bind
      obtain ⟨rfl, rfl⟩ : whole = e ∧ left' = rest := gives_ok_iff.mp h
      rw [← BinaryOp.symbol_of_ofSymbol? hop]
      exact .inr ⟨op, right, _, behind, rfl, hright, hwhole⟩
    · obtain ⟨rfl, rfl⟩ := gives_done_iff.mp h
      exact .inl ⟨rfl, rfl⟩
  · obtain ⟨rfl, rfl⟩ := gives_done_iff.mp h
    exact .inl ⟨rfl, rfl⟩

theorem Expression.readAfterCommas_cases {ts : List Token} {es : List Expression}
    {rest : List Token} (h : (Expression.readAfterCommas ts).Gives es rest) :
    (es = [] ∧ ts = rest) ∨
      ∃ first others after left, es = first :: others ∧ ts = .symbol .comma :: after ∧
        (Expression.read after).Gives first left ∧
        (Expression.readAfterCommas left).Gives others rest := by
  unfold Expression.readAfterCommas at h
  split at h
  · next after =>
    obtain ⟨first, left, _, hfirst, h⟩ := h.exists_of_bind
    obtain ⟨others, left', _, hothers, h⟩ := h.exists_of_bind
    obtain ⟨rfl, rfl⟩ : first :: others = es ∧ left' = rest := gives_ok_iff.mp h
    exact .inr ⟨first, others, after, left, rfl, rfl, hfirst, hothers⟩
  · obtain ⟨rfl, rfl⟩ := gives_done_iff.mp h
    exact .inl ⟨rfl, rfl⟩

mutual

theorem Call.spelled_of_read (construct : Construct) (ts : List Token) {c : Call}
    {rest : List Token} (h : (Call.read construct ts).Gives c rest) : ts = c.tokens ++ rest := by
  rw [Call.read] at h
  obtain ⟨⟨receiver, name⟩, left₁, hlt₁, htarget, h⟩ := h.exists_of_bind
  obtain ⟨⟨⟩, left₂, hlt₂, hopen, h⟩ := h.exists_of_bind
  obtain ⟨arguments, left₃, _, harguments, h⟩ := h.exists_of_bind
  obtain ⟨⟨⟩, left₄, _, hclose, h⟩ := h.exists_of_bind
  obtain ⟨rfl, rfl⟩ : Call.mk receiver name arguments = c ∧ left₄ = rest := gives_ok_iff.mp h
  have hleft₁ : left₁ = .symbol .leftParen :: left₂ := gives_symbol_iff.mp hopen
  have hleft₂ := Expression.spelled_of_readList left₂ harguments
  have hleft₃ : left₃ = .symbol .rightParen :: left₄ := gives_symbol_iff.mp hclose
  have hts : ts = Call.targetTokens receiver name ++ left₁ := Call.spelled_of_readTarget htarget
  rw [hts, hleft₁, hleft₂, hleft₃, Call.tokens_mk]
  simp only [List.cons_append, List.append_assoc, List.nil_append]
termination_by 4 * ts.length
decreasing_by all_goals grind

theorem Term.spelled_of_read (ts : List Token) {t : Term} {rest : List Token}
    (h : (Term.read ts).Gives t rest) : ts = t.tokens ++ rest := by
  cases Term.readFrom_of_read h with
  | integer | string | constant | «variable» => rfl
  | element array hindex =>
    rw [Expression.spelled_of_read _ hindex, Term.tokens]
    simp only [List.cons_append, List.append_assoc, List.nil_append]
  | parenthesized hinner =>
    rw [Expression.spelled_of_read _ hinner, Term.tokens]
    simp only [List.cons_append, List.append_assoc, List.nil_append]
  | unary op hoperand =>
    rw [Term.spelled_of_read _ hoperand, Term.tokens]
    rfl
  | call htarget => exact Call.spelled_of_read .term ts htarget
termination_by 4 * ts.length + 1
decreasing_by all_goals grind

theorem Expression.spelled_of_read (ts : List Token) {e : Expression} {rest : List Token}
    (h : (Expression.read ts).Gives e rest) : ts = e.tokens ++ rest := by
  rw [Expression.read] at h
  obtain ⟨first, left, hlt, hfirst, h⟩ := h.exists_of_bind
  obtain ⟨whole, left', _, hwhole, h⟩ := h.exists_of_bind
  obtain ⟨rfl, rfl⟩ : whole = e ∧ left' = rest := gives_ok_iff.mp h
  rw [Term.spelled_of_read ts hfirst]
  exact Expression.spelled_of_readMore (.term first) left hwhole
termination_by 4 * ts.length + 2
decreasing_by all_goals grind

theorem Expression.spelled_of_readMore (left : Expression) (ts : List Token) {e : Expression}
    {rest : List Token} (h : (Expression.readMore left ts).Gives e rest) :
    left.tokens ++ ts = e.tokens ++ rest := by
  rcases Expression.readMore_cases h with
    ⟨rfl, rfl⟩ | ⟨op, right, after, behind, hts, hright, hwhole⟩
  · rfl
  · have hlt := hright.length_lt
    rw [← Expression.spelled_of_readMore (.binary left op right) behind hwhole, hts,
      Term.spelled_of_read after hright, Expression.tokens]
    simp only [List.cons_append, List.append_assoc]
termination_by 4 * ts.length
decreasing_by all_goals grind

theorem Expression.spelled_of_readList (ts : List Token) {es : List Expression}
    {rest : List Token} (h : (Expression.readList ts).Gives es rest) :
    ts = Expression.listTokens es ++ rest := by
  rw [Expression.readList] at h
  split at h
  · obtain ⟨first, left, hlt, hfirst, h⟩ := h.exists_of_bind
    obtain ⟨others, left', _, hothers, h⟩ := h.exists_of_bind
    obtain ⟨rfl, rfl⟩ : first :: others = es ∧ left' = rest := gives_ok_iff.mp h
    have hleft := Expression.spelled_of_readAfterCommas left hothers
    rw [Expression.spelled_of_read ts hfirst, hleft, Expression.listTokens, List.append_assoc]
  · obtain ⟨rfl, rfl⟩ := gives_done_iff.mp h
    rfl
termination_by 4 * ts.length + 3
decreasing_by all_goals grind

theorem Expression.spelled_of_readAfterCommas (ts : List Token) {es : List Expression}
    {rest : List Token} (h : (Expression.readAfterCommas ts).Gives es rest) :
    ts = Expression.commaTokens es ++ rest := by
  rcases Expression.readAfterCommas_cases h with
    ⟨rfl, rfl⟩ | ⟨first, others, after, left, rfl, hts, hfirst, hothers⟩
  · rfl
  · have hlt := hfirst.length_lt
    rw [hts, Expression.spelled_of_read after hfirst,
      Expression.spelled_of_readAfterCommas left hothers, Expression.commaTokens]
    simp only [List.cons_append, List.append_assoc]
termination_by 4 * ts.length
decreasing_by all_goals grind

end

/-- In front of these tokens a name is not the beginning of something longer. -/
def Term.Ends (rest : List Token) : Prop :=
  ∀ s ∈ [Symbol.leftBracket, .leftParen, .dot], startsWithSymbol s rest = false

/-- In front of these tokens an expression is over. -/
def Expression.Ends (rest : List Token) : Prop :=
  Term.Ends rest ∧ ∀ op : BinaryOp, startsWithSymbol op.symbol rest = false

theorem Term.ends_operator (op : BinaryOp) (rest : List Token) :
    Term.Ends (.symbol op.symbol :: rest) := by
  cases op <;> simp [Term.Ends, startsWithSymbol, BinaryOp.symbol]

theorem Expression.ends_symbol {s : Symbol}
    (hs : s ∈ [Symbol.rightParen, .rightBracket, .comma, .semicolon]) (rest : List Token) :
    Expression.Ends (.symbol s :: rest) := by
  constructor
  · intro s' hs'
    show decide (s = s') = false
    revert s s'
    decide
  · intro op
    show decide (s = op.symbol) = false
    cases op <;> revert s <;> decide

theorem Term.begins_tokens (t : Term) (rest : List Token) : Term.begins (t.tokens ++ rest) := by
  cases t with
  | integer value => rfl
  | string text => rfl
  | constant value =>
    show (Constant.ofKeyword? value.keyword).isSome = true
    rw [Constant.ofKeyword?_keyword]
    rfl
  | «variable» name => rfl
  | element array index => rfl
  | parenthesized inner => rfl
  | unary op operand =>
    show (op.symbol == .leftParen || (UnaryOp.ofSymbol? op.symbol).isSome) = true
    rw [UnaryOp.ofSymbol?_symbol]
    exact Bool.or_true _
  | call target =>
    obtain ⟨_ | receiver, name, arguments⟩ := target
    · rfl
    · rfl

theorem Expression.begins_tokens (e : Expression) (rest : List Token) :
    Expression.begins (e.tokens ++ rest) := by
  cases e with
  | term value => exact value.begins_tokens rest
  | binary left op right =>
    rw [Expression.tokens, List.append_assoc]
    exact Expression.begins_tokens left _

theorem Expression.readMore_of_ends (e : Expression) {rest : List Token}
    (hend : Expression.Ends rest) : (Expression.readMore e rest).Gives e rest := by
  unfold Expression.readMore
  split
  · next s after =>
    split
    · next op hop =>
      have hstart := hend.2 op
      rw [BinaryOp.symbol_of_ofSymbol? hop] at hstart
      exact absurd hstart (by simp [startsWithSymbol])
    · exact gives_done_iff.mpr ⟨rfl, rfl⟩
  · exact gives_done_iff.mpr ⟨rfl, rfl⟩

theorem Call.readTarget_spelled (construct : Construct) (receiver : Option String)
    (name : String) (rest : List Token) :
    (Call.readTarget construct (Call.targetTokens receiver name ++ .symbol .leftParen ::
      rest)).Gives (receiver, name) (.symbol .leftParen :: rest) := by
  cases receiver with
  | none =>
    -- the parenthesis behind the name is not a dot, so the name stands alone
    exact (gives_identifier_iff.mpr rfl).bind fun _ => gives_ok _
  | some object => exact (gives_identifier_iff.mpr rfl).bind fun _ => gives_ok _

theorem Call.begins_of_ends {name : String} {rest : List Token} (hend : Term.Ends rest) :
    Call.begins (.identifier name :: rest) = false := by
  unfold Call.begins
  split
  · next s after heq =>
    cases heq
    have hparen := hend .leftParen (by decide)
    have hdot := hend .dot (by decide)
    simp_all [startsWithSymbol]
  · rfl

theorem Term.read_variable (name : String) {rest : List Token} (hend : Term.Ends rest) :
    (Term.read (.identifier name :: rest)).Gives (.variable name) rest := by
  rw [Term.read, if_neg (Bool.eq_false_iff.mp (Call.begins_of_ends hend))]
  · exact gives_done_iff.mpr ⟨rfl, rfl⟩
  · -- a bracket would have made it an array element
    rintro after rfl
    have hbracket := hend .leftBracket (by decide)
    cases hbracket

/-- A name with a parenthesis or a dot behind it begins a call. -/
theorem Term.read_call {name : String} {s : Symbol} (hs : s = .leftParen ∨ s = .dot)
    {after rest : List Token} {target : Call}
    (h : (Call.read .term (.identifier name :: .symbol s :: after)).Gives target rest) :
    (Term.read (.identifier name :: .symbol s :: after)).Gives (.call target) rest := by
  have hbegins : Call.begins (.identifier name :: .symbol s :: after) = true := by
    rcases hs with rfl | rfl <;> rfl
  rw [Term.read, if_pos hbegins]
  · exact h.bind fun _ => gives_ok _
  · rintro after' heq
    cases heq
    rcases hs with hs | hs <;> cases hs

theorem Expression.ends_commaTokens (es : List Expression) (rest : List Token) :
    Expression.Ends (Expression.commaTokens es ++ .symbol .rightParen :: rest) := by
  cases es with
  | nil =>
    rw [Expression.commaTokens]
    exact Expression.ends_symbol (by decide) rest
  | cons first others =>
    rw [Expression.commaTokens]
    exact Expression.ends_symbol (by decide) _

mutual

theorem Call.read_spelled (construct : Construct) (c : Call) (rest : List Token) :
    (Call.read construct (c.tokens ++ rest)).Gives c rest := by
  obtain ⟨receiver, name, arguments⟩ := c
  have harguments := Expression.readList_spelled arguments rest
  have htokens : (Call.mk receiver name arguments).tokens ++ rest =
      Call.targetTokens receiver name ++ .symbol .leftParen ::
        (Expression.listTokens arguments ++ .symbol .rightParen :: rest) := by
    simp [Call.tokens_mk]
  rw [htokens, Call.read]
  refine (Call.readTarget_spelled construct receiver name _).bind fun _ => ?_
  refine (gives_symbol_iff.mpr rfl).bind fun _ => ?_
  refine harguments.bind fun _ => ?_
  exact (gives_symbol_iff.mpr rfl).bind fun _ => gives_ok _
termination_by (sizeOf c, 0)

theorem Term.read_spelled (t : Term) {rest : List Token} (hend : Term.Ends rest) :
    (Term.read (t.tokens ++ rest)).Gives t rest := by
  cases t with
  | integer value =>
    show (Term.read (.integer value :: rest)).Gives _ _
    rw [Term.read]
    exact gives_done_iff.mpr ⟨rfl, rfl⟩
  | string text =>
    show (Term.read (.string text :: rest)).Gives _ _
    rw [Term.read]
    exact gives_done_iff.mpr ⟨rfl, rfl⟩
  | constant value =>
    show (Term.read (.keyword value.keyword :: rest)).Gives _ _
    rw [Term.read, Constant.ofKeyword?_keyword]
    exact gives_done_iff.mpr ⟨rfl, rfl⟩
  | «variable» name => exact Term.read_variable name hend
  | element array index =>
    have htokens : (Term.element array index).tokens ++ rest = .identifier array ::
        .symbol .leftBracket :: (index.tokens ++ .symbol .rightBracket :: rest) := by
      simp [Term.tokens]
    have hbracket : Expression.Ends (.symbol .rightBracket :: rest) :=
      Expression.ends_symbol (by decide) rest
    have hindex := Expression.read_spelled index hbracket
    rw [htokens, Term.read]
    refine hindex.bind fun _ => ?_
    exact (gives_symbol_iff.mpr rfl).bind fun _ => gives_ok _
  | parenthesized inner =>
    have htokens : (Term.parenthesized inner).tokens ++ rest = .symbol .leftParen ::
        (inner.tokens ++ .symbol .rightParen :: rest) := by
      simp [Term.tokens]
    have hparen : Expression.Ends (.symbol .rightParen :: rest) :=
      Expression.ends_symbol (by decide) rest
    have hinner := Expression.read_spelled inner hparen
    rw [htokens, Term.read]
    refine hinner.bind fun _ => ?_
    exact (gives_symbol_iff.mpr rfl).bind fun _ => gives_ok _
  | unary op operand =>
    have hoperand := Term.read_spelled operand hend
    show (Term.read (.symbol op.symbol :: (operand.tokens ++ rest))).Gives _ _
    rw [Term.read, UnaryOp.ofSymbol?_symbol]
    · exact hoperand.bind fun _ => gives_ok _
    · -- no unary operator is an opening parenthesis
      cases op <;> simp [UnaryOp.symbol]
  | call target =>
    have htarget := Call.read_spelled .term target rest
    obtain ⟨_ | object, name, arguments⟩ := target
    · exact Term.read_call (.inl rfl) htarget
    · exact Term.read_call (.inr rfl) htarget
termination_by (sizeOf t, 0)

/-- The tokens of an expression are read up to the point where only more operators can follow. -/
theorem Expression.read_spelled_of_readMore (e : Expression) {rest : List Token}
    (hend : Term.Ends rest) {whole : Expression} {left : List Token}
    (h : (Expression.readMore e rest).Gives whole left) :
    (Expression.read (e.tokens ++ rest)).Gives whole left := by
  cases e with
  | term value =>
    rw [Expression.tokens, Expression.read]
    refine (Term.read_spelled value hend).bind fun _ => ?_
    exact h.bind fun _ => gives_ok _
  | binary left op right =>
    have hright := Term.read_spelled right hend
    rw [Expression.tokens, List.append_assoc]
    -- reading goes from left to right, so the left operand is followed to where it goes on
    refine Expression.read_spelled_of_readMore left (Term.ends_operator op _) ?_
    show (Expression.readMore left (.symbol op.symbol :: (right.tokens ++ rest))).Gives _ _
    rw [Expression.readMore, BinaryOp.ofSymbol?_symbol]
    refine hright.bind fun _ => ?_
    exact h.bind fun _ => gives_ok _
termination_by (sizeOf e, 0)

theorem Expression.read_spelled (e : Expression) {rest : List Token}
    (hend : Expression.Ends rest) : (Expression.read (e.tokens ++ rest)).Gives e rest :=
  Expression.read_spelled_of_readMore e hend.1 (Expression.readMore_of_ends e hend)
termination_by (sizeOf e, 1)

theorem Expression.readList_spelled (es : List Expression) (rest : List Token) :
    (Expression.readList (Expression.listTokens es ++ .symbol .rightParen :: rest)).Gives es
      (.symbol .rightParen :: rest) := by
  cases es with
  | nil =>
    rw [Expression.listTokens, List.nil_append, Expression.readList]
    exact gives_done_iff.mpr ⟨rfl, rfl⟩
  | cons first others =>
    have hcomma := Expression.ends_commaTokens others rest
    have hfirst := Expression.read_spelled first hcomma
    have hothers := Expression.readAfterCommas_spelled others rest
    rw [Expression.listTokens, List.append_assoc, Expression.readList,
      if_pos (first.begins_tokens _)]
    refine hfirst.bind fun _ => ?_
    exact hothers.bind fun _ => gives_ok _
termination_by (sizeOf es, 0)

theorem Expression.readAfterCommas_spelled (es : List Expression) (rest : List Token) :
    (Expression.readAfterCommas (Expression.commaTokens es ++ .symbol .rightParen :: rest)).Gives
      es (.symbol .rightParen :: rest) := by
  cases es with
  | nil =>
    rw [Expression.commaTokens, List.nil_append, Expression.readAfterCommas]
    · exact gives_done_iff.mpr ⟨rfl, rfl⟩
    · rintro after heq
      cases heq
  | cons first others =>
    have hcomma := Expression.ends_commaTokens others rest
    have hfirst := Expression.read_spelled first hcomma
    have hothers := Expression.readAfterCommas_spelled others rest
    rw [Expression.commaTokens, List.append_assoc]
    show (Expression.readAfterCommas (.symbol .comma :: (first.tokens ++
      (Expression.commaTokens others ++ .symbol .rightParen :: rest)))).Gives _ _
    rw [Expression.readAfterCommas]
    refine hfirst.bind fun _ => ?_
    exact hothers.bind fun _ => gives_ok _
termination_by (sizeOf es, 0)

end

end Jack
