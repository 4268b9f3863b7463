import Jack.Proofs.Expression.Walk
import Jack.Proofs.Statement.Spelling

/-! The rules for statements as walks through the spellings of statements. -/

namespace Jack.Statement

open Reading Walk

/-! What each rule does, token by token. -/

theorem walk_readIndex :
    walk readIndex = ifNext (.symbol .leftBracket)
      (do
        let index ← walk Expression.read
        walk (symbol .rightBracket .letStatement)
        return some index)
      (return none) := by
  funext ts
  show outcome (readIndex ts) = _
  by_cases hbracket : ∃ after, ts = .symbol .leftBracket :: after
  · obtain ⟨after, rfl⟩ := hbracket
    rw [ifNext_token]
    exact outcome_bind rfl fun _ => outcome_bind rfl fun _ => rfl
  · simp only [not_exists] at hbracket
    rw [ifNext_of_ne _ _ hbracket, readIndex]
    · rfl
    · exact hbracket

theorem walk_readLet :
    walk readLet = do
      walk (keyword .let .letStatement)
      let target ← walk (identifier .letStatement "variable name")
      let index ← walk readIndex
      walk (symbol .equals .letStatement)
      let value ← walk Expression.read
      walk (symbol .semicolon .letStatement)
      return .let target index value := by
  funext ts
  refine outcome_bind rfl fun _ => outcome_bind rfl fun _ => outcome_bind rfl fun _ => ?_
  exact outcome_bind rfl fun _ => outcome_bind rfl fun _ => outcome_bind rfl fun _ => rfl

theorem walk_readDo :
    walk readDo = do
      walk (keyword .do .doStatement)
      let target ← walk (Call.read .doStatement)
      walk (symbol .semicolon .doStatement)
      return .do target := by
  funext ts
  exact outcome_bind rfl fun _ => outcome_bind rfl fun _ => outcome_bind rfl fun _ => rfl

theorem walk_readValue :
    walk readValue = look fun next =>
      if Expression.begins next.toList then do
        let value ← walk Expression.read
        return some value
      else
        return none := by
  funext ts
  show outcome (readValue ts) = _
  simp only [readValue, look, Expression.begins_head]
  split
  · exact outcome_bind rfl fun _ => rfl
  · rfl

theorem walk_readReturn :
    walk readReturn = do
      walk (keyword .return .returnStatement)
      let value ← walk readValue
      walk (symbol .semicolon .returnStatement)
      return .return value := by
  funext ts
  exact outcome_bind rfl fun _ => outcome_bind rfl fun _ => outcome_bind rfl fun _ => rfl

theorem walk_readCondition (construct : Construct) :
    walk (readCondition construct) = do
      walk (symbol .leftParen construct)
      let condition ← walk Expression.read
      walk (symbol .rightParen construct)
      return condition := by
  funext ts
  exact outcome_bind rfl fun _ => outcome_bind rfl fun _ => outcome_bind rfl fun _ => rfl

theorem walk_readBlock (construct : Construct) :
    walk (readBlock construct) = do
      walk (symbol .leftBrace construct)
      let body ← walk readList
      walk (symbol .rightBrace construct)
      return body := by
  funext ts
  show outcome (readBlock construct ts) = _
  rw [readBlock]
  exact outcome_bind rfl fun _ => outcome_bind rfl fun _ => outcome_bind rfl fun _ => rfl

theorem walk_readElse :
    walk readElse = ifNext (.keyword .else)
      (do
        let body ← walk (readBlock .ifStatement)
        return some body)
      (return none) := by
  funext ts
  show outcome (readElse ts) = _
  by_cases helse : ∃ after, ts = .keyword .else :: after
  · obtain ⟨after, rfl⟩ := helse
    rw [ifNext_token, readElse]
    exact outcome_bind rfl fun _ => rfl
  · simp only [not_exists] at helse
    rw [ifNext_of_ne _ _ helse, readElse]
    · rfl
    · exact helse

theorem walk_readIf :
    walk readIf = do
      walk (keyword .if .ifStatement)
      let condition ← walk (readCondition .ifStatement)
      let thenBody ← walk (readBlock .ifStatement)
      let elseBody ← walk readElse
      return .if condition thenBody elseBody := by
  funext ts
  show outcome (readIf ts) = _
  rw [readIf]
  refine outcome_bind rfl fun _ => outcome_bind rfl fun _ => outcome_bind rfl fun _ => ?_
  exact outcome_bind rfl fun _ => rfl

theorem walk_readWhile :
    walk readWhile = do
      walk (keyword .while .whileStatement)
      let condition ← walk (readCondition .whileStatement)
      let body ← walk (readBlock .whileStatement)
      return .while condition body := by
  funext ts
  show outcome (readWhile ts) = _
  rw [readWhile]
  exact outcome_bind rfl fun _ => outcome_bind rfl fun _ => outcome_bind rfl fun _ => rfl

theorem walk_read :
    walk read = look fun next => match next with
      | some (.keyword .let) => walk readLet
      | some (.keyword .if) => walk readIf
      | some (.keyword .while) => walk readWhile
      | some (.keyword .do) => walk readDo
      | some (.keyword .return) => walk readReturn
      | _ => fail (.statements, "a statement") := by
  funext ts
  show outcome (read ts) = _
  rcases ts with _ | ⟨word | _ | _ | _ | _, rest⟩
  case cons.keyword => cases word <;> rw [read] <;> first | rfl | simp
  all_goals
    rw [read] <;> first | rfl | simp

theorem walk_readList :
    walk readList = look fun next =>
      if begins next.toList then do
        let first ← walk read
        let others ← walk readList
        return first :: others
      else
        return [] := by
  funext ts
  have hhead : begins ts.head?.toList = begins ts := by
    rcases ts with _ | ⟨word | _ | _ | _ | _, rest⟩ <;> first | rfl | cases word <;> rfl
  show outcome (readList ts) = _
  rw [readList]
  simp only [look, hhead]
  split
  · exact outcome_bind rfl fun _ => outcome_bind rfl fun _ => rfl
  · rfl

/-! The languages of the rules. -/

abbrev language : Language Token := spellings tokens Set.univ

/-- The statements that one keyword predicts. -/
abbrev languageOf (word : Keyword) : Language Token := spellings tokens {s | s.opener = word}

theorem languageOf_subset (word : Keyword) : ∀ ts ∈ languageOf word, ts ∈ language := by
  rintro _ ⟨s, -, rfl⟩
  exact ⟨s, trivial, rfl⟩

abbrev listLanguage : Language Token := spellings listTokens Set.univ

abbrev indexLanguage : Language Token := spellings indexTokens Set.univ

abbrev valueLanguage : Language Token := spellings valueTokens Set.univ

abbrev conditionLanguage : Language Token := spellings conditionTokens Set.univ

abbrev blockLanguage : Language Token := spellings (fun ss => blockTokens (listTokens ss)) Set.univ

abbrev elseLanguage : Language Token := spellings elseTokens Set.univ

instance : Productive language := ⟨_, .return none, trivial, rfl⟩

instance : Productive listLanguage := ⟨_, [], trivial, rfl⟩

instance : Productive indexLanguage := ⟨_, none, trivial, rfl⟩

instance : Productive valueLanguage := ⟨_, none, trivial, rfl⟩

instance : Productive conditionLanguage := ⟨_, .term (.integer 0), trivial, rfl⟩

instance : Productive blockLanguage := ⟨_, [], trivial, rfl⟩

instance : Productive elseLanguage := ⟨_, none, trivial, rfl⟩

variable (N : Nat)

theorem reads_readIndex : (walk readIndex).Reads N indexLanguage := by
  rw [walk_readIndex]
  refine .ifNext ((Expression.reads _).bind fun _ => (Reads.symbol _ _).bind fun _ => .pure _) ?_
    (Reads.mono (.pure _) ?_)
  · rintro _ ⟨_, ⟨index, -, rfl⟩, _, ⟨_, rfl, _, rfl, rfl⟩, rfl⟩
    exact ⟨some index, trivial, by simp [indexTokens]⟩
  · rintro _ rfl
    exact ⟨none, trivial, rfl⟩

theorem reads_readLet : (walk readLet).Reads N (languageOf .let) := by
  rw [walk_readLet]
  refine ((Reads.keyword _ _).bind fun _ => (Reads.identifier _ _).bind fun _ =>
    (reads_readIndex N).bind fun _ => (Reads.symbol _ _).bind fun _ =>
      (Expression.reads N).bind fun _ => (Reads.symbol _ _).bind fun _ => .pure _).mono ?_
  rintro _ ⟨_, rfl, _, ⟨_, ⟨target, -, rfl⟩, _, ⟨_, ⟨index, -, rfl⟩, _, ⟨_, rfl, _,
    ⟨_, ⟨value, -, rfl⟩, _, ⟨_, rfl, _, rfl, rfl⟩, rfl⟩, rfl⟩, rfl⟩, rfl⟩, rfl⟩
  exact ⟨.let target index value, rfl, by simp [tokens]⟩

theorem reads_readDo : (walk readDo).Reads N (languageOf .do) := by
  rw [walk_readDo]
  refine ((Reads.keyword _ _).bind fun _ => (Call.reads _ N).bind fun _ =>
    (Reads.symbol _ _).bind fun _ => .pure _).mono ?_
  rintro _ ⟨_, rfl, _, ⟨_, ⟨target, -, rfl⟩, _, ⟨_, rfl, _, rfl, rfl⟩, rfl⟩, rfl⟩
  exact ⟨.do target, rfl, by simp [tokens]⟩

theorem reads_readValue : (walk readValue).Reads N valueLanguage := by
  rw [walk_readValue]
  refine .look fun next => ?_
  split
  · refine ((Expression.reads N).bind fun _ => .pure _).mono ?_
    rintro _ ⟨_, ⟨value, -, rfl⟩, _, rfl, rfl⟩
    exact ⟨some value, trivial, by simp [valueTokens]⟩
  · refine Reads.mono (.pure _) ?_
    rintro _ rfl
    exact ⟨none, trivial, rfl⟩

theorem reads_readReturn : (walk readReturn).Reads N (languageOf .return) := by
  rw [walk_readReturn]
  refine ((Reads.keyword _ _).bind fun _ => (reads_readValue N).bind fun _ =>
    (Reads.symbol _ _).bind fun _ => .pure _).mono ?_
  rintro _ ⟨_, rfl, _, ⟨_, ⟨value, -, rfl⟩, _, ⟨_, rfl, _, rfl, rfl⟩, rfl⟩, rfl⟩
  exact ⟨.return value, rfl, by simp [tokens]⟩

theorem reads_readCondition (construct : Construct) :
    (walk (readCondition construct)).Reads N conditionLanguage := by
  rw [walk_readCondition]
  refine ((Reads.symbol _ _).bind fun _ => (Expression.reads N).bind fun _ =>
    (Reads.symbol _ _).bind fun _ => .pure _).mono ?_
  rintro _ ⟨_, rfl, _, ⟨_, ⟨condition, -, rfl⟩, _, ⟨_, rfl, _, rfl, rfl⟩, rfl⟩, rfl⟩
  exact ⟨condition, trivial, by simp [conditionTokens]⟩

mutual

theorem reads_readBlock (construct : Construct) (N : Nat) :
    (walk (readBlock construct)).Reads N blockLanguage := by
  cases N with
  | zero => exact .zero
  | succ N =>
  have body := reads_readList N
  rw [walk_readBlock]
  refine ((Reads.symbol _ _).bind_lt ?_ fun _ => body.bind fun _ =>
    (Reads.symbol _ _).bind fun _ => .pure _).mono ?_
  · rintro _ rfl
    exact List.cons_ne_nil _ _
  · rintro _ ⟨_, rfl, _, ⟨_, ⟨body, -, rfl⟩, _, ⟨_, rfl, _, rfl, rfl⟩, rfl⟩, rfl⟩
    exact ⟨body, trivial, by simp [blockTokens]⟩
termination_by (N, 0)

theorem reads_readElse (N : Nat) : (walk readElse).Reads N elseLanguage := by
  cases N with
  | zero => exact .zero
  | succ N =>
  have body := reads_readBlock .ifStatement N
  rw [walk_readElse]
  refine .ifNext (body.bind fun _ => .pure _) ?_ (Reads.mono (.pure _) ?_)
  · rintro _ ⟨_, ⟨body, -, rfl⟩, _, rfl, rfl⟩
    exact ⟨some body, trivial, by simp [elseTokens]⟩
  · rintro _ rfl
    exact ⟨none, trivial, rfl⟩
termination_by (N, 0)

theorem reads_readIf (N : Nat) : (walk readIf).Reads N (languageOf .if) := by
  have thenBody := reads_readBlock .ifStatement N
  have elseBody := reads_readElse N
  rw [walk_readIf]
  refine ((Reads.keyword _ _).bind fun _ => (reads_readCondition N _).bind fun _ =>
    thenBody.bind fun _ => elseBody.bind fun _ => .pure _).mono ?_
  rintro _ ⟨_, rfl, _, ⟨_, ⟨condition, -, rfl⟩, _, ⟨_, ⟨thenBody, -, rfl⟩, _,
    ⟨_, ⟨elseBody, -, rfl⟩, _, rfl, rfl⟩, rfl⟩, rfl⟩, rfl⟩
  exact ⟨.if condition thenBody elseBody, rfl, by simp [tokens_if]⟩
termination_by (N, 1)

theorem reads_readWhile (N : Nat) : (walk readWhile).Reads N (languageOf .while) := by
  have body := reads_readBlock .whileStatement N
  rw [walk_readWhile]
  refine ((Reads.keyword _ _).bind fun _ => (reads_readCondition N _).bind fun _ =>
    body.bind fun _ => .pure _).mono ?_
  rintro _ ⟨_, rfl, _, ⟨_, ⟨condition, -, rfl⟩, _, ⟨_, ⟨body, -, rfl⟩, _, rfl, rfl⟩, rfl⟩, rfl⟩
  exact ⟨.while condition body, rfl, by simp [tokens]⟩
termination_by (N, 1)

theorem reads_read (N : Nat) : (walk read).Reads N language := by
  have conditional := reads_readIf N
  have loop := reads_readWhile N
  rw [walk_read]
  refine .look fun next => ?_
  split
  · exact (reads_readLet N).mono (languageOf_subset _)
  · exact conditional.mono (languageOf_subset _)
  · exact loop.mono (languageOf_subset _)
  · exact (reads_readDo N).mono (languageOf_subset _)
  · exact (reads_readReturn N).mono (languageOf_subset _)
  · exact .fail _
termination_by (N, 2)

theorem reads_readList (N : Nat) : (walk readList).Reads N listLanguage := by
  have first := reads_read N
  cases N with
  | zero => exact .zero
  | succ N =>
  have others := reads_readList N
  rw [walk_readList]
  refine .look fun next => ?_
  split
  · refine (first.bind_lt ?_ fun _ => others.bind fun _ => .pure _).mono ?_
    · rintro _ ⟨s, -, rfl⟩ hnil
      -- a statement begins with a keyword
      have hbegins := s.begins_tokens []
      rw [hnil] at hbegins
      cases hbegins
    · rintro _ ⟨_, ⟨first, -, rfl⟩, _, ⟨_, ⟨others, -, rfl⟩, _, rfl, rfl⟩, rfl⟩
      exact ⟨first :: others, trivial, by simp [listTokens]⟩
  · refine Reads.mono (.pure _) ?_
    rintro _ rfl
    exact ⟨[], trivial, rfl⟩
termination_by (N, 3)

end

/-- A keyword predicts one kind of statement, and the rule for it builds no other. -/
theorem opener_of_gives {word : Keyword} {rule : (ts : List Token) → Reading Statement ts.length}
    (reads : ∀ N, (walk rule).Reads N (languageOf word)) {ts : List Token} {s : Statement}
    {rest : List Token} (h : (rule ts).Gives s rest) (hts : ts = s.tokens ++ rest) :
    s.opener = word := by
  obtain ⟨_, ⟨s', hs', rfl⟩, hts'⟩ := (reads _).ok (Nat.lt_succ_self _) (gives_iff_outcome.mp h)
  have htokens : s.tokens = s'.tokens := List.append_cancel_right (hts.symm.trans hts')
  obtain ⟨more, hs⟩ := s.exists_tokens_eq
  obtain ⟨more', hmore⟩ := s'.exists_tokens_eq
  rw [hs, hmore, List.cons.injEq, Token.keyword.injEq] at htokens
  exact htokens.1.trans hs'

end Jack.Statement
