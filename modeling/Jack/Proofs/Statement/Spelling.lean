import Jack.Proofs.Expression.Spelling
import Jack.Statement.Grammar

/-! The tokens that spell a statement, and the proof that the rules for statements read these and
no others. Only an `if` without `else` depends on what follows, which must not be an `else`; in a
list of statements it cannot be one. -/

namespace Jack.Statement

open Reading

def conditionTokens (condition : Expression) : List Token :=
  .symbol .leftParen :: condition.tokens ++ [.symbol .rightParen]

def indexTokens : Option Expression → List Token
  | none => []
  | some index => .symbol .leftBracket :: index.tokens ++ [.symbol .rightBracket]

def valueTokens : Option Expression → List Token
  | none => []
  | some value => value.tokens

def blockTokens (body : List Token) : List Token :=
  .symbol .leftBrace :: body ++ [.symbol .rightBrace]

mutual

def tokens : Statement → List Token
  | .let target index value =>
    [.keyword .let, .identifier target] ++ indexTokens index ++ [.symbol .equals] ++
      value.tokens ++ [.symbol .semicolon]
  | .if condition thenBody none =>
    [.keyword .if] ++ conditionTokens condition ++ blockTokens (listTokens thenBody)
  | .if condition thenBody (some elseBody) =>
    [.keyword .if] ++ conditionTokens condition ++ blockTokens (listTokens thenBody) ++
      [.keyword .else] ++ blockTokens (listTokens elseBody)
  | .while condition body =>
    [.keyword .while] ++ conditionTokens condition ++ blockTokens (listTokens body)
  | .do target => [.keyword .do] ++ target.tokens ++ [.symbol .semicolon]
  | .return value => [.keyword .return] ++ valueTokens value ++ [.symbol .semicolon]

def listTokens : List Statement → List Token
  | [] => []
  | first :: others => first.tokens ++ listTokens others

end

def elseTokens : Option (List Statement) → List Token
  | none => []
  | some body => .keyword .else :: blockTokens (listTokens body)

theorem tokens_if (condition : Expression) (thenBody : List Statement)
    (elseBody : Option (List Statement)) :
    tokens (.if condition thenBody elseBody) =
      [.keyword .if] ++ conditionTokens condition ++ blockTokens (listTokens thenBody) ++
        elseTokens elseBody := by
  cases elseBody with
  | none => rw [tokens, elseTokens, List.append_nil]
  | some body =>
    rw [tokens, elseTokens]
    exact List.append_assoc _ _ _

/-! What is read is spelled. -/

theorem spelled_of_readIndex {ts : List Token} {index : Option Expression} {rest : List Token}
    (h : (readIndex ts).Gives index rest) : ts = indexTokens index ++ rest := by
  unfold readIndex at h
  split at h
  · obtain ⟨e, left, _, he, h⟩ := h.exists_of_bind
    obtain ⟨⟨⟩, left', _, hclose, h⟩ := h.exists_of_bind
    obtain ⟨rfl, rfl⟩ : some e = index ∧ left' = rest := gives_ok_iff.mp h
    have hleft : left = .symbol .rightBracket :: left' := gives_symbol_iff.mp hclose
    rw [Expression.spelled_of_read _ he, hleft]
    simp [indexTokens]
  · obtain ⟨rfl, rfl⟩ := gives_done_iff.mp h
    rfl

theorem spelled_of_readLet {ts : List Token} {s : Statement} {rest : List Token}
    (h : (readLet ts).Gives s rest) : ts = s.tokens ++ rest := by
  obtain ⟨⟨⟩, left₁, _, hopen, h⟩ := h.exists_of_bind
  obtain ⟨target, left₂, _, htarget, h⟩ := h.exists_of_bind
  obtain ⟨index, left₃, _, hindex, h⟩ := h.exists_of_bind
  obtain ⟨⟨⟩, left₄, _, hequals, h⟩ := h.exists_of_bind
  obtain ⟨value, left₅, _, hvalue, h⟩ := h.exists_of_bind
  obtain ⟨⟨⟩, left₆, _, hclose, h⟩ := h.exists_of_bind
  obtain ⟨rfl, rfl⟩ : Statement.let target index value = s ∧ left₆ = rest := gives_ok_iff.mp h
  have h₁ : left₁ = .identifier target :: left₂ := gives_identifier_iff.mp htarget
  have h₂ : left₂ = indexTokens index ++ left₃ := spelled_of_readIndex hindex
  have h₃ : left₃ = .symbol .equals :: left₄ := gives_symbol_iff.mp hequals
  have h₄ : left₄ = value.tokens ++ left₅ := Expression.spelled_of_read _ hvalue
  have h₅ : left₅ = .symbol .semicolon :: left₆ := gives_symbol_iff.mp hclose
  rw [gives_keyword_iff.mp hopen, h₁, h₂, h₃, h₄, h₅, tokens]
  simp only [List.append_assoc, List.cons_append, List.nil_append]

theorem spelled_of_readDo {ts : List Token} {s : Statement} {rest : List Token}
    (h : (readDo ts).Gives s rest) : ts = s.tokens ++ rest := by
  obtain ⟨⟨⟩, left₁, _, hopen, h⟩ := h.exists_of_bind
  obtain ⟨target, left₂, _, htarget, h⟩ := h.exists_of_bind
  obtain ⟨⟨⟩, left₃, _, hclose, h⟩ := h.exists_of_bind
  obtain ⟨rfl, rfl⟩ : Statement.do target = s ∧ left₃ = rest := gives_ok_iff.mp h
  have h₁ : left₁ = target.tokens ++ left₂ := Call.spelled_of_read _ _ htarget
  have h₂ : left₂ = .symbol .semicolon :: left₃ := gives_symbol_iff.mp hclose
  rw [gives_keyword_iff.mp hopen, h₁, h₂, tokens]
  simp only [List.append_assoc, List.cons_append, List.nil_append]

theorem spelled_of_readValue {ts : List Token} {value : Option Expression} {rest : List Token}
    (h : (readValue ts).Gives value rest) : ts = valueTokens value ++ rest := by
  unfold readValue at h
  split at h
  · obtain ⟨e, left, _, he, h⟩ := h.exists_of_bind
    obtain ⟨rfl, rfl⟩ : some e = value ∧ left = rest := gives_ok_iff.mp h
    exact Expression.spelled_of_read _ he
  · obtain ⟨rfl, rfl⟩ := gives_done_iff.mp h
    rfl

theorem spelled_of_readReturn {ts : List Token} {s : Statement} {rest : List Token}
    (h : (readReturn ts).Gives s rest) : ts = s.tokens ++ rest := by
  obtain ⟨⟨⟩, left₁, _, hopen, h⟩ := h.exists_of_bind
  obtain ⟨value, left₂, _, hvalue, h⟩ := h.exists_of_bind
  obtain ⟨⟨⟩, left₃, _, hclose, h⟩ := h.exists_of_bind
  obtain ⟨rfl, rfl⟩ : Statement.return value = s ∧ left₃ = rest := gives_ok_iff.mp h
  have h₁ : left₁ = valueTokens value ++ left₂ := spelled_of_readValue hvalue
  have h₂ : left₂ = .symbol .semicolon :: left₃ := gives_symbol_iff.mp hclose
  rw [gives_keyword_iff.mp hopen, h₁, h₂, tokens]
  simp only [List.append_assoc, List.cons_append, List.nil_append]

theorem spelled_of_readCondition {construct : Construct} {ts : List Token} {e : Expression}
    {rest : List Token} (h : (readCondition construct ts).Gives e rest) :
    ts = conditionTokens e ++ rest := by
  obtain ⟨⟨⟩, left₁, _, hopen, h⟩ := h.exists_of_bind
  obtain ⟨condition, left₂, _, hcondition, h⟩ := h.exists_of_bind
  obtain ⟨⟨⟩, left₃, _, hclose, h⟩ := h.exists_of_bind
  obtain ⟨rfl, rfl⟩ : condition = e ∧ left₃ = rest := gives_ok_iff.mp h
  have h₁ : left₁ = condition.tokens ++ left₂ := Expression.spelled_of_read _ hcondition
  have h₂ : left₂ = .symbol .rightParen :: left₃ := gives_symbol_iff.mp hclose
  rw [gives_symbol_iff.mp hopen, h₁, h₂, conditionTokens]
  simp only [List.append_assoc, List.cons_append, List.nil_append]

/-- The first keyword decides which rule reads a statement. -/
theorem read_cases {ts : List Token} {s : Statement} {rest : List Token}
    (h : (read ts).Gives s rest) :
    (readLet ts).Gives s rest ∨ (readIf ts).Gives s rest ∨ (readWhile ts).Gives s rest ∨
      (readDo ts).Gives s rest ∨ (readReturn ts).Gives s rest := by
  unfold read at h
  split at h
  · exact .inl h
  · exact .inr (.inl h)
  · exact .inr (.inr (.inl h))
  · exact .inr (.inr (.inr (.inl h)))
  · exact .inr (.inr (.inr (.inr h)))
  · exact absurd h not_gives_unexpected

theorem readElse_cases {ts : List Token} {body : Option (List Statement)} {rest : List Token}
    (h : (readElse ts).Gives body rest) :
    (body = none ∧ ts = rest) ∨ ∃ ss after, body = some ss ∧ ts = .keyword .else :: after ∧
      (readBlock .ifStatement after).Gives ss rest := by
  unfold readElse at h
  split at h
  · next after =>
    obtain ⟨ss, left, _, hbody, h⟩ := h.exists_of_bind
    obtain ⟨rfl, rfl⟩ : some ss = body ∧ left = rest := gives_ok_iff.mp h
    exact .inr ⟨ss, after, rfl, rfl, hbody⟩
  · obtain ⟨rfl, rfl⟩ := gives_done_iff.mp h
    exact .inl ⟨rfl, rfl⟩

mutual

theorem spelled_of_read (ts : List Token) {s : Statement} {rest : List Token}
    (h : (read ts).Gives s rest) : ts = s.tokens ++ rest := by
  rcases read_cases h with h | h | h | h | h
  · exact spelled_of_readLet h
  · exact spelled_of_readIf ts h
  · exact spelled_of_readWhile ts h
  · exact spelled_of_readDo h
  · exact spelled_of_readReturn h
termination_by 4 * ts.length + 1
decreasing_by all_goals grind

theorem spelled_of_readIf (ts : List Token) {s : Statement} {rest : List Token}
    (h : (readIf ts).Gives s rest) : ts = s.tokens ++ rest := by
  rw [readIf] at h
  obtain ⟨⟨⟩, left₁, hlt₁, hopen, h⟩ := h.exists_of_bind
  obtain ⟨condition, left₂, hlt₂, hcondition, h⟩ := h.exists_of_bind
  obtain ⟨thenBody, left₃, hlt₃, hthen, h⟩ := h.exists_of_bind
  obtain ⟨elseBody, left₄, _, helse, h⟩ := h.exists_of_bind
  obtain ⟨rfl, rfl⟩ : Statement.if condition thenBody elseBody = s ∧ left₄ = rest :=
    gives_ok_iff.mp h
  have h₁ : left₁ = conditionTokens condition ++ left₂ := spelled_of_readCondition hcondition
  have h₂ := spelled_of_readBlock .ifStatement left₂ hthen
  have h₃ := spelled_of_readElse left₃ helse
  rw [gives_keyword_iff.mp hopen, h₁, h₂, h₃, tokens_if]
  simp only [List.append_assoc, List.cons_append, List.nil_append]
termination_by 4 * ts.length
decreasing_by all_goals grind

theorem spelled_of_readElse (ts : List Token) {body : Option (List Statement)}
    {rest : List Token} (h : (readElse ts).Gives body rest) : ts = elseTokens body ++ rest := by
  rcases readElse_cases h with ⟨rfl, rfl⟩ | ⟨ss, after, rfl, hts, hbody⟩
  · rfl
  · rw [hts, spelled_of_readBlock .ifStatement after hbody, elseTokens]
    rfl
termination_by 4 * ts.length
decreasing_by all_goals grind

theorem spelled_of_readWhile (ts : List Token) {s : Statement} {rest : List Token}
    (h : (readWhile ts).Gives s rest) : ts = s.tokens ++ rest := by
  rw [readWhile] at h
  obtain ⟨⟨⟩, left₁, hlt₁, hopen, h⟩ := h.exists_of_bind
  obtain ⟨condition, left₂, hlt₂, hcondition, h⟩ := h.exists_of_bind
  obtain ⟨body, left₃, _, hbody, h⟩ := h.exists_of_bind
  obtain ⟨rfl, rfl⟩ : Statement.while condition body = s ∧ left₃ = rest := gives_ok_iff.mp h
  have h₁ : left₁ = conditionTokens condition ++ left₂ := spelled_of_readCondition hcondition
  have h₂ := spelled_of_readBlock .whileStatement left₂ hbody
  rw [gives_keyword_iff.mp hopen, h₁, h₂, tokens]
  simp only [List.append_assoc, List.cons_append, List.nil_append]
termination_by 4 * ts.length
decreasing_by all_goals grind

theorem spelled_of_readBlock (construct : Construct) (ts : List Token) {ss : List Statement}
    {rest : List Token} (h : (readBlock construct ts).Gives ss rest) :
    ts = blockTokens (listTokens ss) ++ rest := by
  rw [readBlock] at h
  obtain ⟨⟨⟩, left₁, hlt₁, hopen, h⟩ := h.exists_of_bind
  obtain ⟨body, left₂, _, hbody, h⟩ := h.exists_of_bind
  obtain ⟨⟨⟩, left₃, _, hclose, h⟩ := h.exists_of_bind
  obtain ⟨rfl, rfl⟩ : body = ss ∧ left₃ = rest := gives_ok_iff.mp h
  have h₁ := spelled_of_readList left₁ hbody
  have h₂ : left₂ = .symbol .rightBrace :: left₃ := gives_symbol_iff.mp hclose
  rw [gives_symbol_iff.mp hopen, h₁, h₂, blockTokens]
  simp only [List.append_assoc, List.cons_append, List.nil_append]
termination_by 4 * ts.length
decreasing_by all_goals grind

theorem spelled_of_readList (ts : List Token) {ss : List Statement} {rest : List Token}
    (h : (readList ts).Gives ss rest) : ts = listTokens ss ++ rest := by
  rw [readList] at h
  split at h
  · obtain ⟨first, left, hlt, hfirst, h⟩ := h.exists_of_bind
    obtain ⟨others, left', _, hothers, h⟩ := h.exists_of_bind
    obtain ⟨rfl, rfl⟩ : first :: others = ss ∧ left' = rest := gives_ok_iff.mp h
    have hleft := spelled_of_readList left hothers
    rw [spelled_of_read ts hfirst, hleft, listTokens, List.append_assoc]
  · obtain ⟨rfl, rfl⟩ := gives_done_iff.mp h
    rfl
termination_by 4 * ts.length + 2
decreasing_by all_goals grind

end

/-! What is spelled is read. -/

theorem readCondition_spelled (construct : Construct) (e : Expression) (rest : List Token) :
    (readCondition construct (conditionTokens e ++ rest)).Gives e rest := by
  have htokens : conditionTokens e ++ rest =
      .symbol .leftParen :: (e.tokens ++ .symbol .rightParen :: rest) := by
    simp [conditionTokens]
  have hcondition := e.read_spelled (Expression.ends_symbol (s := .rightParen) (by decide) rest)
  rw [htokens, readCondition]
  refine (gives_symbol_iff.mpr rfl).bind fun _ => ?_
  refine hcondition.bind fun _ => ?_
  exact (gives_symbol_iff.mpr rfl).bind fun _ => gives_ok _

theorem readIndex_spelled (index : Option Expression) (rest : List Token) :
    (readIndex (indexTokens index ++ .symbol .equals :: rest)).Gives index
      (.symbol .equals :: rest) := by
  cases index with
  | none =>
    rw [indexTokens, List.nil_append, readIndex]
    · exact gives_done_iff.mpr ⟨rfl, rfl⟩
    · rintro after heq
      cases heq
  | some e =>
    have htokens : indexTokens (some e) ++ .symbol .equals :: rest = .symbol .leftBracket ::
        (e.tokens ++ .symbol .rightBracket :: .symbol .equals :: rest) := by
      simp [indexTokens]
    have hindex := e.read_spelled (Expression.ends_symbol (s := .rightBracket) (by decide)
      (.symbol .equals :: rest))
    rw [htokens, readIndex]
    refine hindex.bind fun _ => ?_
    exact (gives_symbol_iff.mpr rfl).bind fun _ => gives_ok _

theorem readLet_spelled (target : String) (index : Option Expression) (value : Expression)
    (rest : List Token) :
    (readLet (tokens (.let target index value) ++ rest)).Gives (.let target index value) rest := by
  have htokens : tokens (.let target index value) ++ rest = .keyword .let :: .identifier target ::
      (indexTokens index ++ .symbol .equals :: (value.tokens ++ .symbol .semicolon :: rest)) := by
    simp [tokens]
  have hvalue := value.read_spelled (Expression.ends_symbol (s := .semicolon) (by decide) rest)
  rw [htokens, readLet]
  refine (gives_keyword_iff.mpr rfl).bind fun _ => ?_
  refine (gives_identifier_iff.mpr rfl).bind fun _ => ?_
  refine (readIndex_spelled index _).bind fun _ => ?_
  refine (gives_symbol_iff.mpr rfl).bind fun _ => ?_
  refine hvalue.bind fun _ => ?_
  exact (gives_symbol_iff.mpr rfl).bind fun _ => gives_ok _

theorem readDo_spelled (target : Call) (rest : List Token) :
    (readDo (tokens (.do target) ++ rest)).Gives (.do target) rest := by
  have htokens : tokens (.do target) ++ rest =
      .keyword .do :: (target.tokens ++ .symbol .semicolon :: rest) := by
    simp [tokens]
  rw [htokens, readDo]
  refine (gives_keyword_iff.mpr rfl).bind fun _ => ?_
  refine (Call.read_spelled .doStatement target _).bind fun _ => ?_
  exact (gives_symbol_iff.mpr rfl).bind fun _ => gives_ok _

theorem readValue_spelled (value : Option Expression) (rest : List Token) :
    (readValue (valueTokens value ++ .symbol .semicolon :: rest)).Gives value
      (.symbol .semicolon :: rest) := by
  cases value with
  | none =>
    rw [valueTokens, List.nil_append, readValue]
    exact gives_done_iff.mpr ⟨rfl, rfl⟩
  | some e =>
    have hvalue := e.read_spelled (Expression.ends_symbol (s := .semicolon) (by decide) rest)
    rw [valueTokens, readValue, if_pos (e.begins_tokens _)]
    exact hvalue.bind fun _ => gives_ok _

theorem readReturn_spelled (value : Option Expression) (rest : List Token) :
    (readReturn (tokens (.return value) ++ rest)).Gives (.return value) rest := by
  have htokens : tokens (.return value) ++ rest =
      .keyword .return :: (valueTokens value ++ .symbol .semicolon :: rest) := by
    simp [tokens]
  rw [htokens, readReturn]
  refine (gives_keyword_iff.mpr rfl).bind fun _ => ?_
  refine (readValue_spelled value rest).bind fun _ => ?_
  exact (gives_symbol_iff.mpr rfl).bind fun _ => gives_ok _

theorem begins_tokens (s : Statement) (rest : List Token) : begins (s.tokens ++ rest) := by
  cases s with
  | «let» target index value => rfl
  | «if» condition thenBody elseBody =>
    rw [tokens_if]
    rfl
  | «while» condition body => rfl
  | «do» target => rfl
  | «return» value => rfl

/-- The keyword that predicts a statement. -/
def opener : Statement → Keyword
  | .let .. => .let
  | .if .. => .if
  | .while .. => .while
  | .do .. => .do
  | .return .. => .return

theorem exists_tokens_eq (s : Statement) : ∃ more, s.tokens = .keyword s.opener :: more := by
  cases s with
  | «let» target index value => exact ⟨_, rfl⟩
  | «if» condition thenBody elseBody =>
    rw [tokens_if]
    exact ⟨_, rfl⟩
  | «while» condition body => exact ⟨_, rfl⟩
  | «do» target => exact ⟨_, rfl⟩
  | «return» value => exact ⟨_, rfl⟩

theorem not_else_of_begins {ts : List Token} (h : begins ts) :
    startsWithKeyword .else ts = false := by
  unfold begins at h
  split at h <;> first | rfl | cases h

/-- What follows a statement in a block is another statement or the end of the block. -/
theorem listTokens_not_else (ss : List Statement) (rest : List Token) :
    startsWithKeyword .else (listTokens ss ++ .symbol .rightBrace :: rest) = false := by
  cases ss with
  | nil => rfl
  | cons first others =>
    rw [listTokens, List.append_assoc]
    exact not_else_of_begins (first.begins_tokens _)

theorem readElse_of_not_else {rest : List Token} (h : startsWithKeyword .else rest = false) :
    (readElse rest).Gives none rest := by
  unfold readElse
  split
  · cases h
  · exact gives_done_iff.mpr ⟨rfl, rfl⟩

mutual

theorem read_spelled (s : Statement) {rest : List Token}
    (hend : startsWithKeyword .else rest = false) : (read (s.tokens ++ rest)).Gives s rest := by
  cases s with
  | «let» target index value =>
    show (read (.keyword .let :: _)).Gives _ _
    rw [read]
    exact readLet_spelled target index value rest
  | «if» condition thenBody elseBody =>
    have hthen := readBlock_spelled .ifStatement thenBody (elseTokens elseBody ++ rest)
    have helse : (readElse (elseTokens elseBody ++ rest)).Gives elseBody rest := by
      cases elseBody with
      | none => exact readElse_of_not_else hend
      | some body =>
        have hbody := readBlock_spelled .ifStatement body rest
        show (readElse (.keyword .else :: (blockTokens (listTokens body) ++ rest))).Gives _ _
        rw [readElse]
        exact hbody.bind fun _ => gives_ok _
    have htokens : tokens (.if condition thenBody elseBody) ++ rest = .keyword .if ::
        (conditionTokens condition ++
          (blockTokens (listTokens thenBody) ++ (elseTokens elseBody ++ rest))) := by
      simp [tokens_if]
    rw [htokens, read, readIf]
    refine (gives_keyword_iff.mpr rfl).bind fun _ => ?_
    refine (readCondition_spelled .ifStatement condition _).bind fun _ => ?_
    refine hthen.bind fun _ => ?_
    exact helse.bind fun _ => gives_ok _
  | «while» condition body =>
    have hbody := readBlock_spelled .whileStatement body rest
    have htokens : tokens (.while condition body) ++ rest = .keyword .while ::
        (conditionTokens condition ++ (blockTokens (listTokens body) ++ rest)) := by
      simp [tokens]
    rw [htokens, read, readWhile]
    refine (gives_keyword_iff.mpr rfl).bind fun _ => ?_
    refine (readCondition_spelled .whileStatement condition _).bind fun _ => ?_
    exact hbody.bind fun _ => gives_ok _
  | «do» target =>
    show (read (.keyword .do :: _)).Gives _ _
    rw [read]
    exact readDo_spelled target rest
  | «return» value =>
    show (read (.keyword .return :: _)).Gives _ _
    rw [read]
    exact readReturn_spelled value rest

theorem readBlock_spelled (construct : Construct) (ss : List Statement) (rest : List Token) :
    (readBlock construct (blockTokens (listTokens ss) ++ rest)).Gives ss rest := by
  have hbody := readList_spelled ss rest
  have htokens : blockTokens (listTokens ss) ++ rest =
      .symbol .leftBrace :: (listTokens ss ++ .symbol .rightBrace :: rest) := by
    simp [blockTokens]
  rw [htokens, readBlock]
  refine (gives_symbol_iff.mpr rfl).bind fun _ => ?_
  refine hbody.bind fun _ => ?_
  exact (gives_symbol_iff.mpr rfl).bind fun _ => gives_ok _

theorem readList_spelled (ss : List Statement) (rest : List Token) :
    (readList (listTokens ss ++ .symbol .rightBrace :: rest)).Gives ss
      (.symbol .rightBrace :: rest) := by
  cases ss with
  | nil =>
    rw [listTokens, List.nil_append, readList]
    exact gives_done_iff.mpr ⟨rfl, rfl⟩
  | cons first others =>
    have hfirst := read_spelled first (listTokens_not_else others rest)
    have hothers := readList_spelled others rest
    rw [listTokens, List.append_assoc, readList, if_pos (first.begins_tokens _)]
    refine hfirst.bind fun _ => ?_
    exact hothers.bind fun _ => gives_ok _

end

theorem read_spelled_of_opener {word : Keyword}
    {rule : (ts : List Token) → Reading Statement ts.length}
    (hrule : ∀ more, read (.keyword word :: more) = rule (.keyword word :: more))
    {s : Statement} (hopener : s.opener = word) {rest : List Token}
    (hend : startsWithKeyword .else rest = false) : (rule (s.tokens ++ rest)).Gives s rest := by
  have hread := s.read_spelled hend
  obtain ⟨more, htokens⟩ := s.exists_tokens_eq
  rw [htokens, hopener, List.cons_append] at hread ⊢
  rwa [hrule] at hread

end Jack.Statement
