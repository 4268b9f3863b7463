import Jack.Proofs.Grammar.Rule

/-! The prediction of a rule is exact. A rule that takes a token was predicted, a rule that is not
predicted takes none, and behind tokens that predict a rule there can be others with which the
rule is read in full. -/

namespace Jack

open Reading Walk

theorem startsWithKeyword_iff {word : Keyword} {ts : List Token} :
    startsWithKeyword word ts ↔ ∃ rest, ts = .keyword word :: rest := by
  rcases ts with _ | ⟨_ | _ | _ | _ | _, rest⟩ <;> simp [startsWithKeyword]

theorem startsWithSymbol_iff {s : Symbol} {ts : List Token} :
    startsWithSymbol s ts ↔ ∃ rest, ts = .symbol s :: rest := by
  rcases ts with _ | ⟨_ | _ | _ | _ | _, rest⟩ <;> simp [startsWithSymbol]

theorem ValueType.begins_iff {ts : List Token} :
    ValueType.begins ts ↔ ∃ type rest, ts = ValueType.token type :: rest := by
  constructor
  · intro h
    unfold ValueType.begins at h
    split at h
    · exact ⟨.int, _, rfl⟩
    · exact ⟨.char, _, rfl⟩
    · exact ⟨.boolean, _, rfl⟩
    · exact ⟨.object _, _, rfl⟩
    · cases h
  · rintro ⟨type, rest, rfl⟩
    cases type <;> rfl

theorem ClassVariables.exists_of_begins {ts : List Token} (h : ClassVariables.begins ts) :
    ∃ (kind : ClassVariableKind) (rest : List Token), ts = .keyword kind.keyword :: rest := by
  rcases Bool.or_eq_true_iff.mp h with h | h
  · exact ⟨.static, startsWithKeyword_iff.mp h⟩
  · exact ⟨.field, startsWithKeyword_iff.mp h⟩

theorem Subroutine.exists_of_begins {ts : List Token} (h : Subroutine.begins ts) :
    ∃ (kind : SubroutineKind) (rest : List Token), ts = .keyword kind.keyword :: rest := by
  rcases Bool.or_eq_true_iff.mp h with h | h
  · rcases Bool.or_eq_true_iff.mp h with h | h
    · exact ⟨.constructor, startsWithKeyword_iff.mp h⟩
    · exact ⟨.function, startsWithKeyword_iff.mp h⟩
  · exact ⟨.method, startsWithKeyword_iff.mp h⟩

theorem Call.exists_of_begins {ts : List Token} (h : Call.begins ts) :
    ∃ name s rest, ts = .identifier name :: .symbol s :: rest ∧ (s = .leftParen ∨ s = .dot) := by
  unfold Call.begins at h
  split at h
  · next name s rest => exact ⟨name, s, rest, rfl, by simpa using h⟩
  · cases h

/-- Every token that predicts a term is the first one of some term. -/
theorem Term.exists_of_begins {ts : List Token} (h : Term.begins ts) :
    ∃ (t : Term) (more : List Token), t.tokens = ts.take 1 ++ more := by
  unfold Term.begins at h
  split at h
  · exact ⟨.integer _, [], rfl⟩
  · exact ⟨.string _, [], rfl⟩
  · exact ⟨.variable _, [], rfl⟩
  · next word rest =>
    obtain ⟨value, hvalue⟩ := Option.isSome_iff_exists.mp h
    obtain rfl := Constant.keyword_of_ofKeyword? hvalue
    exact ⟨.constant value, [], rfl⟩
  · next s rest =>
    rcases Bool.or_eq_true_iff.mp h with hs | hs
    · obtain rfl := beq_iff_eq.mp hs
      exact ⟨.parenthesized (.term (.integer 0)), _, rfl⟩
    · obtain ⟨op, hop⟩ := Option.isSome_iff_exists.mp hs
      obtain rfl := UnaryOp.symbol_of_ofSymbol? hop
      exact ⟨.unary op (.integer 0), _, rfl⟩
  · cases h

theorem Statement.exists_of_begins {ts : List Token} (h : Statement.begins ts) :
    ∃ (s : Statement) (more : List Token), s.tokens = ts.take 1 ++ more := by
  unfold Statement.begins at h
  split at h
  · exact ⟨.let "" none (.term (.integer 0)), _, rfl⟩
  · exact ⟨.if (.term (.integer 0)) [] none, _, rfl⟩
  · exact ⟨.while (.term (.integer 0)) [], _, rfl⟩
  · exact ⟨.do ⟨none, "", []⟩, _, rfl⟩
  · exact ⟨.return none, _, rfl⟩
  · cases h

namespace Rule

/-- How many tokens the prediction of a rule looks at. -/
def lookahead : Rule → Nat
  | .call _ => 2
  | _ => 1

theorem begins_take (rule : Rule) (ts : List Token) :
    rule.begins (ts.take rule.lookahead) = rule.begins ts := by
  rcases rule with construct | _ | within | _
  case construct =>
    cases construct <;> rcases ts with _ | ⟨word | _ | _ | _ | _, rest⟩ <;>
      first | rfl | cases word <;> rfl
  case statement =>
    rcases ts with _ | ⟨word | _ | _ | _ | _, rest⟩ <;> first | rfl | cases word <;> rfl
  case call => rcases ts with _ | ⟨_ | _ | _ | _ | _, _ | ⟨_ | _ | _ | _ | _, rest⟩⟩ <;> rfl
  case file => rcases ts with _ | ⟨_ | _ | _ | _ | _, rest⟩ <;> rfl

theorem lookahead_le_length {rule : Rule} {ts : List Token} (h : rule.begins ts) :
    rule.lookahead ≤ ts.length := by
  rcases rule with construct | _ | within | _
  case call =>
    obtain ⟨name, s, rest, rfl, -⟩ := Call.exists_of_begins h
    exact Nat.le_add_left 2 _
  all_goals
    rcases ts with _ | ⟨token, rest⟩
    · first | cases h | cases construct <;> cases h
    · exact Nat.le_add_left 1 _

/-- What a rule takes predicts it. -/
theorem begins_tokens {rule : Rule} {node : Node} (h : rule.Builds node) (hne : node.tokens ≠ [])
    (rest : List Token) : rule.begins (node.tokens ++ rest) := by
  have hopened {word : Keyword} {s : Statement} (hopener : s.opener = word) :
      startsWithKeyword word (s.tokens ++ rest) := by
    obtain ⟨more, htokens⟩ := s.exists_tokens_eq
    exact startsWithKeyword_iff.mpr ⟨more ++ rest, by rw [htokens, hopener, List.cons_append]⟩
  cases h with
  | «class» | subroutineBody | varDec | file => rfl
  | classVarDec => exact ClassVariables.begins_tokens _ rest
  | subroutineDec => exact Subroutine.begins_tokens _ rest
  | letStatement hopener | ifStatement hopener | whileStatement hopener | doStatement hopener
  | returnStatement hopener => exact hopened hopener
  | expression e => exact e.begins_tokens rest
  | term t => exact t.begins_tokens rest
  | statement s => exact s.begins_tokens rest
  | statements ss =>
    cases ss with
    | nil => exact absurd rfl hne
    | cons first others =>
      rw [Node.tokens, Statement.listTokens, List.append_assoc]
      exact Bool.or_eq_true_iff.mpr (.inl (first.begins_tokens _))
  | expressionList es =>
    cases es with
    | nil => exact absurd rfl hne
    | cons first others =>
      rw [Node.tokens, Expression.listTokens, List.append_assoc]
      exact Bool.or_eq_true_iff.mpr (.inl (first.begins_tokens _))
  | parameterList ps =>
    cases ps with
    | nil => exact absurd rfl hne
    | cons first others =>
      exact Bool.or_eq_true_iff.mpr (.inl (ValueType.begins_iff.mpr ⟨first.type, _, rfl⟩))
  | call within c =>
    obtain ⟨_ | receiver, name, arguments⟩ := c
    · rfl
    · rfl

theorem begins_of_gives {rule : Rule} {ts : List Token} {node : Node} {rest : List Token}
    (h : (rule.read ts).Gives node rest) (hlt : rest.length < ts.length) : rule.begins ts := by
  obtain ⟨hbuilds, rfl⟩ := spelled_of_read h
  refine begins_tokens hbuilds (fun hnil => ?_) rest
  rw [hnil] at hlt
  exact Nat.lt_irrefl _ hlt

theorem length_lt_of_taking {α : Type} {n : Nat} {node : α → Node} {r : Reading α n}
    {result : Node} {rest : List Token} (h : (taking node r).Gives result rest) :
    rest.length < n := by
  obtain ⟨value, -, hvalue⟩ := gives_taking_iff.mp h
  exact hvalue.length_lt

/-- A rule that was not predicted builds at most a node of nothing. -/
theorem nothing_of_gives {rule : Rule} {ts : List Token} {node : Node} {rest : List Token}
    (h : (rule.read ts).Gives node rest) (hbegins : rule.begins ts = false) :
    (rule = .construct .statements ∧ node = .statements [] ∨
      rule = .construct .expressionList ∧ node = .expressions []) ∧ rest = ts := by
  have hle : ¬ rest.length < ts.length := fun hlt => by
    rw [begins_of_gives h hlt] at hbegins
    cases hbegins
  rcases rule with construct | _ | within | _
  case construct =>
    cases construct with
    | statements =>
      obtain ⟨ss, rfl, hread⟩ := gives_spanning_iff.mp h
      have hstop := (Bool.or_eq_false_iff.mp hbegins).1
      rw [Statement.readList, if_neg (Bool.eq_false_iff.mp hstop)] at hread
      obtain ⟨rfl, rfl⟩ := gives_done_iff.mp hread
      exact ⟨.inl ⟨rfl, rfl⟩, rfl⟩
    | expressionList =>
      obtain ⟨es, rfl, hread⟩ := gives_spanning_iff.mp h
      have hstop := (Bool.or_eq_false_iff.mp hbegins).1
      rw [Expression.readList, if_neg (Bool.eq_false_iff.mp hstop)] at hread
      obtain ⟨rfl, rfl⟩ := gives_done_iff.mp hread
      exact ⟨.inr ⟨rfl, rfl⟩, rfl⟩
    | parameterList =>
      -- without a parenthesis to stop at, a parameter has to be there
      obtain ⟨ps, rfl, hread⟩ := gives_spanning_iff.mp h
      have hparen := (Bool.or_eq_false_iff.mp hbegins).2
      rw [Parameter.readList, if_neg (Bool.eq_false_iff.mp hparen)] at hread
      obtain ⟨found, left, hlt, -, hread⟩ := hread.exists_of_bind
      obtain ⟨-, rfl⟩ : found = ps ∧ left = rest := gives_ok_iff.mp hread
      exact absurd hlt hle
    | _ => exact absurd (length_lt_of_taking h) hle
  all_goals exact absurd (length_lt_of_taking h) hle

theorem lookahead_cases (rule : Rule) :
    rule.lookahead = 1 ∨ rule.lookahead = 2 ∧ ∃ within, rule = .call within := by
  cases rule with
  | call within => exact .inr ⟨rfl, within, rfl⟩
  | construct | statement | file => exact .inl rfl

/-- A rule that was not predicted fails within the tokens that the prediction looks at. -/
theorem taken_of_error {rule : Rule} {ts : List Token} {miss : Miss} {left : List Token}
    (h : walk rule.read ts = (.error miss, left)) (hbegins : rule.begins ts = false) :
    left = ts ∨ ∃ within name, rule = .call within ∧ ts = .identifier name :: left := by
  obtain ⟨taken, more, ⟨node, hbuilds, htokens⟩, rfl⟩ :=
    (rule.reads_read _).error (Nat.lt_succ_self _) h
  rcases taken with _ | ⟨token, taken⟩
  · exact .inl rfl
  right
  have hne : node.tokens ≠ [] := by
    rw [htokens]
    exact List.cons_ne_nil _ _
  have hshort : (token :: taken).length < rule.lookahead := by
    by_contra hlong
    rw [not_lt] at hlong
    have hnode := begins_tokens hbuilds hne []
    rw [List.append_nil, htokens, ← begins_take, List.take_append_of_le_length hlong] at hnode
    rw [← begins_take, List.take_append_of_le_length hlong, hnode] at hbegins
    cases hbegins
  rcases rule.lookahead_cases with hone | ⟨htwo, within, rfl⟩
  · rw [hone, List.length_cons] at hshort
    omega
  · obtain rfl : taken = [] := by
      rw [htwo, List.length_cons] at hshort
      exact List.length_eq_zero_iff.mp (by omega)
    cases hbuilds with
    | call _ c =>
      obtain ⟨_ | receiver, name, arguments⟩ := c
      · exact ⟨within, name, rfl, by cases htokens; rfl⟩
      · exact ⟨within, receiver, rfl, by cases htokens; rfl⟩

/-- The tokens that predict a rule are the first ones of something that it reads in full. -/
theorem exists_of_begins {rule : Rule} {ts : List Token} (h : rule.begins ts) :
    ∃ node more, rule.Builds node ∧
      node.tokens ++ rule.closing = ts.take rule.lookahead ++ more := by
  -- a node begins with these tokens, or they are what closes a node of nothing
  suffices (∃ node more, rule.Builds node ∧ node.tokens = ts.take rule.lookahead ++ more) ∨
      ∃ node, rule.Builds node ∧ node.tokens ++ rule.closing = ts.take rule.lookahead by
    rcases this with ⟨node, more, hbuilds, htokens⟩ | ⟨node, hbuilds, htokens⟩
    · exact ⟨node, more ++ rule.closing, hbuilds, by rw [htokens, List.append_assoc]⟩
    · exact ⟨node, [], hbuilds, by rw [htokens, List.append_nil]⟩
  rcases rule with construct | _ | within | _
  case construct =>
    cases construct with
    | «class» =>
      obtain ⟨rest, rfl⟩ := startsWithKeyword_iff.mp h
      exact .inl ⟨.class ⟨"", [], []⟩, _, .class ⟨nofun, nofun⟩, rfl⟩
    | classVarDec =>
      obtain ⟨kind, rest, rfl⟩ := ClassVariables.exists_of_begins h
      exact .inl ⟨.classVariables ⟨kind, .int, [""]⟩, _, .classVarDec nofun, rfl⟩
    | subroutineDec =>
      obtain ⟨kind, rest, rfl⟩ := Subroutine.exists_of_begins h
      exact .inl ⟨.subroutine ⟨kind, none, "", [], ⟨[], []⟩⟩, _, .subroutineDec nofun, rfl⟩
    | subroutineBody =>
      obtain ⟨rest, rfl⟩ := startsWithSymbol_iff.mp h
      exact .inl ⟨.body ⟨[], []⟩, _, .subroutineBody nofun, rfl⟩
    | varDec =>
      obtain ⟨rest, rfl⟩ := startsWithKeyword_iff.mp h
      exact .inl ⟨.locals ⟨.int, [""]⟩, _, .varDec nofun, rfl⟩
    | statements =>
      rcases Bool.or_eq_true_iff.mp h with h | h
      · obtain ⟨s, more, hs⟩ := Statement.exists_of_begins h
        exact .inl ⟨.statements [s], more, .statements _, (List.append_nil _).trans hs⟩
      · obtain ⟨rest, rfl⟩ := startsWithSymbol_iff.mp h
        exact .inr ⟨.statements [], .statements [], rfl⟩
    | letStatement =>
      obtain ⟨rest, rfl⟩ := startsWithKeyword_iff.mp h
      exact .inl ⟨.statement (.let "" none (.term (.integer 0))), _, .letStatement rfl, rfl⟩
    | ifStatement =>
      obtain ⟨rest, rfl⟩ := startsWithKeyword_iff.mp h
      exact .inl ⟨.statement (.if (.term (.integer 0)) [] none), _, .ifStatement rfl, rfl⟩
    | whileStatement =>
      obtain ⟨rest, rfl⟩ := startsWithKeyword_iff.mp h
      exact .inl ⟨.statement (.while (.term (.integer 0)) []), _, .whileStatement rfl, rfl⟩
    | doStatement =>
      obtain ⟨rest, rfl⟩ := startsWithKeyword_iff.mp h
      exact .inl ⟨.statement (.do ⟨none, "", []⟩), _, .doStatement rfl, rfl⟩
    | returnStatement =>
      obtain ⟨rest, rfl⟩ := startsWithKeyword_iff.mp h
      exact .inl ⟨.statement (.return none), _, .returnStatement rfl, rfl⟩
    | expression =>
      obtain ⟨t, more, ht⟩ := Term.exists_of_begins h
      exact .inl ⟨.expression (.term t), more, .expression _, ht⟩
    | term =>
      obtain ⟨t, more, ht⟩ := Term.exists_of_begins h
      exact .inl ⟨.term t, more, .term t, ht⟩
    | expressionList =>
      rcases Bool.or_eq_true_iff.mp h with h | h
      · obtain ⟨t, more, ht⟩ := Term.exists_of_begins h
        exact .inl ⟨.expressions [.term t], more, .expressionList _, (List.append_nil _).trans ht⟩
      · obtain ⟨rest, rfl⟩ := startsWithSymbol_iff.mp h
        exact .inr ⟨.expressions [], .expressionList [], rfl⟩
    | parameterList =>
      rcases Bool.or_eq_true_iff.mp h with h | h
      · obtain ⟨type, rest, rfl⟩ := ValueType.begins_iff.mp h
        exact .inl ⟨.parameters [⟨type, ""⟩], _, .parameterList _, rfl⟩
      · obtain ⟨rest, rfl⟩ := startsWithSymbol_iff.mp h
        exact .inr ⟨.parameters [], .parameterList [], rfl⟩
  case statement =>
    obtain ⟨s, more, hs⟩ := Statement.exists_of_begins h
    exact .inl ⟨.statement s, more, .statement s, hs⟩
  case call =>
    obtain ⟨name, s, rest, rfl, hs⟩ := Call.exists_of_begins h
    rcases hs with rfl | rfl
    · exact .inl ⟨.call ⟨none, name, []⟩, _, .call within _, rfl⟩
    · exact .inl ⟨.call ⟨some name, "", []⟩, _, .call within _, rfl⟩
  case file =>
    obtain ⟨rest, rfl⟩ := startsWithKeyword_iff.mp h
    exact .inl ⟨.class ⟨"", [], []⟩, _, .file ⟨nofun, nofun⟩, rfl⟩

/-- What comes of a rule in front of tokens that do not predict it. Most rules fail at the first of
them, some may build a node of nothing, and a call may take the name that it could begin with. -/
inductive Declines (c : Cursor) : Rule → Except CompileError Node × Cursor → Prop
  | fails (rule : Rule) (construct : Construct) (expected : String) :
      Declines c rule (.error (.grammatical c.line construct expected (c.peek 0)), c)
  | noStatements : Declines c (.construct .statements) (.ok (.statements []), c)
  | noExpressions : Declines c (.construct .expressionList) (.ok (.expressions []), c)
  | failsBehindName (within construct : Construct) (expected : String) {name : String}
      (hname : c.peek 0 = some (.identifier name)) :
      Declines c (.call within)
        (.error (.grammatical c.advance.line construct expected (c.advance.peek 0)), c.advance)

theorem declines_of_not_begins {rule : Rule} {c : Cursor} (h : rule.begins c.tokens = false) :
    Declines c rule (c.run rule.read) := by
  rcases hrun : c.run rule.read with ⟨error | node, stopped⟩
  · obtain ⟨construct, expected, left, hwalk, rfl, rfl⟩ := Cursor.exists_of_run_eq_error hrun
    rcases taken_of_error hwalk h with rfl | ⟨within, name, rfl, htokens⟩
    · rw [Cursor.moveTo_length_tokens]
      exact .fails rule construct expected
    · obtain ⟨hmove, hname⟩ := Cursor.moveTo_of_tokens_eq_cons htokens
      rw [hmove]
      exact .failsBehindName within construct expected hname
  · obtain ⟨left, hgives, rfl⟩ := Cursor.run_eq_ok_iff.mp hrun
    obtain ⟨hnothing, rfl⟩ := nothing_of_gives hgives h
    rw [Cursor.moveTo_length_tokens]
    rcases hnothing with ⟨rfl, rfl⟩ | ⟨rfl, rfl⟩
    · exact .noStatements
    · exact .noExpressions

/-- A rule that took a token was predicted, and a rule that is not predicted declines. If a rule is
predicted then it can succeed: the tokens that the prediction looks at are there, and others can
follow them with which they are read. -/
theorem begins_predicts_read (rule : Rule) (c : Cursor) :
    (∀ node stopped, c.run rule.read = (.ok node, stopped) →
      stopped.remaining.length < c.remaining.length → rule.begins c.tokens) ∧
    (rule.begins c.tokens = false → Declines c rule (c.run rule.read)) ∧
    (rule.begins c.tokens → rule.lookahead ≤ c.remaining.length ∧ ∃ more node stopped,
      Cursor.run rule.read ⟨c.remaining.take rule.lookahead ++ more, c.lastLine⟩ =
        (.ok node, stopped)) := by
  refine ⟨fun node stopped hrun hlt => ?_, declines_of_not_begins, fun hbegins => ?_⟩
  · obtain ⟨left, hgives, rfl⟩ := Cursor.run_eq_ok_iff.mp hrun
    rw [Cursor.length_remaining_moveTo] at hlt
    refine begins_of_gives hgives ?_
    rw [Cursor.tokens, List.length_map]
    omega
  · obtain ⟨node, more, hbuilds, htokens⟩ := exists_of_begins hbegins
    obtain ⟨behind, rfl⟩ : ∃ behind : List Located, behind.map (·.token) = more :=
      ⟨more.map (⟨·, c.lastLine⟩), by simp [Function.comp_def]⟩
    have hspelling : Cursor.tokens ⟨c.remaining.take rule.lookahead ++ behind, c.lastLine⟩ =
        node.tokens ++ rule.closing := by
      simp [Cursor.tokens, htokens]
    have hgives := read_spelled hbuilds
    rw [← hspelling] at hgives
    have hlookahead := lookahead_le_length hbegins
    rw [Cursor.tokens, List.length_map] at hlookahead
    exact ⟨hlookahead, behind, node, _, Cursor.run_eq_ok_iff.mpr ⟨_, hgives, rfl⟩⟩

end Rule

end Jack
