import Jack.Grammar.Reading

/-! What a rule reads, apart from the bound on what it leaves. Two things are shown of each way
to build rules: what was read is a spelling of the value, and a spelling is read as its value,
whatever follows it that cannot continue it. -/

namespace Jack.Reading

variable {α β : Type} {n m : Nat}

/-- The rule succeeds with this value and leaves these tokens. -/
def Gives (r : Reading α n) (value : α) (rest : List Token) : Prop :=
  ∃ h, r = .ok ⟨value, rest, h⟩

theorem gives_ok {value : α} {rest : List Token} (h : rest.length < n) :
    Gives (.ok ⟨value, rest, h⟩) value rest := ⟨h, rfl⟩

theorem gives_ok_iff {p : Parsed α n} {value : α} {rest : List Token} :
    Gives (.ok p) value rest ↔ p.value = value ∧ p.rest = rest := by
  obtain ⟨v, left, hlt⟩ := p
  constructor
  · rintro ⟨h, heq⟩
    rw [Except.ok.injEq, Parsed.mk.injEq] at heq
    exact heq
  · rintro ⟨rfl, rfl⟩
    exact gives_ok hlt

theorem gives_done_iff {a value : α} {ts rest : List Token} :
    (done a ts).Gives value rest ↔ a = value ∧ ts = rest := gives_ok_iff

theorem not_gives_unexpected {construct : Construct} {expected : String} {ts rest : List Token}
    {value : α} : ¬ (unexpected construct expected ts : Reading α n).Gives value rest := by
  rintro ⟨h, heq⟩
  cases heq

theorem Gives.exists_of_bind {r : Reading α n} {f : Parsed α n → Reading β m} {b : β}
    {rest : List Token} (h : Gives (r >>= f) b rest) :
    ∃ a left hlt, r.Gives a left ∧ (f ⟨a, left, hlt⟩).Gives b rest := by
  cases r with
  | error e =>
    obtain ⟨hlt, heq⟩ := h
    cases heq
  | ok p => exact ⟨p.value, p.rest, p.rest_length_lt, gives_ok p.rest_length_lt, h⟩

theorem Gives.bind {r : Reading α n} {f : Parsed α n → Reading β m} {a : α} {b : β}
    {left rest : List Token} (first : r.Gives a left)
    (second : ∀ h, (f ⟨a, left, h⟩).Gives b rest) : Gives (r >>= f) b rest := by
  obtain ⟨h, rfl⟩ := first
  exact second h

/-- What a rule leaves is shorter. Where rules call each other, an induction goes by this. -/
theorem Gives.length_lt {r : Reading α n} {value : α} {rest : List Token}
    (h : r.Gives value rest) : rest.length < n := by
  obtain ⟨hlt, -⟩ := h
  exact hlt

theorem Gives.unique {r : Reading α n} {a b : α} {rest rest' : List Token}
    (first : r.Gives a rest) (second : r.Gives b rest') : a = b := by
  obtain ⟨h, rfl⟩ := first
  exact (gives_ok_iff.mp second).1

/-- A rule that takes one token, where each value has a token of its own. -/
structure TakesOne (rule : (ts : List Token) → Reading α ts.length) (spell : α → Token)
    (construct : Construct) (expected : String) : Prop where
  takes : ∀ value rest, rule (spell value :: rest) = done value rest
  stops : ∀ ts, (∀ value rest, ts ≠ spell value :: rest) →
    rule ts = unexpected construct expected ts

theorem TakesOne.gives_iff {rule : (ts : List Token) → Reading α ts.length} {spell : α → Token}
    {construct : Construct} {expected : String} (one : TakesOne rule spell construct expected)
    {ts rest : List Token} {value : α} :
    (rule ts).Gives value rest ↔ ts = spell value :: rest := by
  constructor
  · intro h
    by_cases hts : ∃ found left, ts = spell found :: left
    · obtain ⟨found, left, rfl⟩ := hts
      rw [one.takes] at h
      obtain ⟨rfl, rfl⟩ := gives_done_iff.mp h
      rfl
    · simp only [not_exists] at hts
      rw [one.stops ts hts] at h
      exact absurd h not_gives_unexpected
  · rintro rfl
    rw [one.takes]
    exact gives_done_iff.mpr ⟨rfl, rfl⟩

theorem TakesOne.injective {rule : (ts : List Token) → Reading α ts.length} {spell : α → Token}
    {construct : Construct} {expected : String} (one : TakesOne rule spell construct expected) :
    Function.Injective spell := by
  intro value value' h
  have hgives : (rule [spell value']).Gives value [] := one.gives_iff.mpr (by rw [h])
  exact hgives.unique (one.gives_iff.mpr rfl)

theorem takesOne_keyword (word : Keyword) (construct : Construct) :
    TakesOne (keyword word construct) (fun _ => .keyword word) construct s!"'{word.text}'" where
  takes _ _ := if_pos rfl
  stops ts hts := by
    unfold keyword
    split
    · apply if_neg
      rintro rfl
      exact hts () _ rfl
    · rfl

theorem takesOne_symbol (s : Symbol) (construct : Construct) :
    TakesOne (symbol s construct) (fun _ => .symbol s) construct s!"'{s.text}'" where
  takes _ _ := if_pos rfl
  stops ts hts := by
    unfold symbol
    split
    · apply if_neg
      rintro rfl
      exact hts () _ rfl
    · rfl

theorem takesOne_identifier (construct : Construct) (expected : String) :
    TakesOne (identifier construct expected) .identifier construct expected where
  takes _ _ := rfl
  stops ts hts := by
    unfold identifier
    split
    · exact absurd rfl (hts _ _)
    · rfl

theorem gives_keyword_iff {word : Keyword} {construct : Construct} {ts rest : List Token} :
    (keyword word construct ts).Gives () rest ↔ ts = .keyword word :: rest :=
  (takesOne_keyword word construct).gives_iff

theorem gives_symbol_iff {s : Symbol} {construct : Construct} {ts rest : List Token} :
    (symbol s construct ts).Gives () rest ↔ ts = .symbol s :: rest :=
  (takesOne_symbol s construct).gives_iff

theorem gives_identifier_iff {construct : Construct} {expected name : String}
    {ts rest : List Token} :
    (identifier construct expected ts).Gives name rest ↔ ts = .identifier name :: rest :=
  (takesOne_identifier construct expected).gives_iff

/-! Repetition. A rule that reads spellings and only spellings makes a repetition do the same. -/

variable {rule : (ts : List Token) → Reading α ts.length} {spell : α → List Token}
  {valid : α → Prop}

theorem spelled_of_many {begins : List Token → Bool}
    (hrule : ∀ {ts value rest}, (rule ts).Gives value rest → ts = spell value ++ rest ∧ valid value)
    (ts : List Token) {values : List α} {rest : List Token}
    (h : (many begins rule ts).Gives values rest) :
    ts = values.flatMap spell ++ rest ∧ ∀ v ∈ values, valid v := by
  rw [many] at h
  split at h
  · obtain ⟨first, left, hlt, hfirst, h⟩ := h.exists_of_bind
    obtain ⟨others, left', _, hothers, h⟩ := h.exists_of_bind
    obtain ⟨rfl, rfl⟩ : first :: others = values ∧ left' = rest := gives_ok_iff.mp h
    obtain ⟨rfl, hvalid⟩ := hrule hfirst
    obtain ⟨rfl, hall⟩ := spelled_of_many hrule left hothers
    exact ⟨(List.append_assoc _ _ _).symm, List.forall_mem_cons.mpr ⟨hvalid, hall⟩⟩
  · obtain ⟨rfl, rfl⟩ := gives_done_iff.mp h
    exact ⟨rfl, fun v hv => absurd hv List.not_mem_nil⟩
termination_by ts.length

theorem many_spelled {begins : List Token → Bool} {values : List α} {rest : List Token}
    (hrule : ∀ v ∈ values, ∀ rest, (rule (spell v ++ rest)).Gives v rest)
    (hbegins : ∀ v rest, begins (spell v ++ rest)) (hend : begins rest = false) :
    (many begins rule (values.flatMap spell ++ rest)).Gives values rest := by
  induction values with
  | nil =>
    show (many begins rule rest).Gives [] rest
    rw [many, if_neg (Bool.eq_false_iff.mp hend)]
    exact gives_done_iff.mpr ⟨rfl, rfl⟩
  | cons v others ih =>
    rw [List.forall_mem_cons] at hrule
    rw [List.flatMap_cons, List.append_assoc, many, if_pos (hbegins _ _)]
    refine (hrule.1 _).bind fun _ => ?_
    exact (ih hrule.2).bind fun _ => gives_ok _

/-- The spellings of several values, with a comma before each. -/
def tokensAfterCommas (spell : α → List Token) (values : List α) : List Token :=
  values.flatMap fun v => .symbol .comma :: spell v

/-- The spellings of several values, with a comma between one and the next. -/
def separatedTokens (spell : α → List Token) : List α → List Token
  | [] => []
  | first :: others => spell first ++ tokensAfterCommas spell others

theorem afterCommas_cases {ts : List Token} {values : List α} {rest : List Token}
    (h : (afterCommas rule ts).Gives values rest) :
    (values = [] ∧ ts = rest) ∨
      ∃ first others after left, values = first :: others ∧ ts = .symbol .comma :: after ∧
        (rule after).Gives first left ∧ (afterCommas rule left).Gives others rest := by
  unfold afterCommas at h
  split at h
  · next after =>
    obtain ⟨first, left, _, hfirst, h⟩ := h.exists_of_bind
    obtain ⟨others, left', _, hothers, h⟩ := h.exists_of_bind
    obtain ⟨rfl, rfl⟩ : first :: others = values ∧ left' = rest := gives_ok_iff.mp h
    exact .inr ⟨first, others, after, left, rfl, rfl, hfirst, hothers⟩
  · obtain ⟨rfl, rfl⟩ := gives_done_iff.mp h
    exact .inl ⟨rfl, rfl⟩

theorem spelled_of_afterCommas
    (hrule : ∀ {ts value rest}, (rule ts).Gives value rest → ts = spell value ++ rest)
    {ts : List Token} {values : List α} {rest : List Token}
    (h : (afterCommas rule ts).Gives values rest) :
    ts = tokensAfterCommas spell values ++ rest := by
  induction values generalizing ts with
  | nil =>
    rcases afterCommas_cases h with ⟨-, rfl⟩ | ⟨first, others, after, left, hcons, -⟩
    · rfl
    · cases hcons
  | cons v values ih =>
    rcases afterCommas_cases h with ⟨hnil, -⟩ | ⟨first, others, after, left, hcons, rfl, hfirst, h⟩
    · cases hnil
    · rw [List.cons.injEq] at hcons
      obtain ⟨rfl, rfl⟩ := hcons
      rw [hrule hfirst, ih h]
      exact congrArg _ (List.append_assoc _ _ _).symm

theorem afterCommas_of_not_comma {rest : List Token} (hend : startsWithSymbol .comma rest = false) :
    (afterCommas rule rest).Gives [] rest := by
  unfold afterCommas
  split
  · cases hend
  · exact gives_done_iff.mpr ⟨rfl, rfl⟩

theorem afterCommas_spelled
    (hrule : ∀ v rest, (rule (spell v ++ rest)).Gives v rest) (values : List α)
    {rest : List Token} (hend : startsWithSymbol .comma rest = false) :
    (afterCommas rule (tokensAfterCommas spell values ++ rest)).Gives values rest := by
  induction values with
  | nil => exact afterCommas_of_not_comma hend
  | cons v others ih =>
    show (afterCommas rule (.symbol .comma :: (spell v ++ tokensAfterCommas spell others) ++
      rest)).Gives (v :: others) rest
    rw [List.cons_append, List.append_assoc, afterCommas]
    refine (hrule _ _).bind fun _ => ?_
    exact ih.bind fun _ => gives_ok _

theorem spelled_of_separated
    (hrule : ∀ {ts value rest}, (rule ts).Gives value rest → ts = spell value ++ rest)
    {ts : List Token} {values : List α} {rest : List Token}
    (h : (separated rule ts).Gives values rest) :
    ts = separatedTokens spell values ++ rest ∧ values ≠ [] := by
  obtain ⟨first, left, _, hfirst, h⟩ := h.exists_of_bind
  obtain ⟨others, left', _, hothers, h⟩ := h.exists_of_bind
  obtain ⟨rfl, rfl⟩ : first :: others = values ∧ left' = rest := gives_ok_iff.mp h
  refine ⟨?_, List.cons_ne_nil _ _⟩
  have hleft : left = tokensAfterCommas spell others ++ left' :=
    spelled_of_afterCommas hrule hothers
  rw [hrule hfirst, hleft]
  exact (List.append_assoc _ _ _).symm

theorem separated_spelled (hrule : ∀ v rest, (rule (spell v ++ rest)).Gives v rest)
    {values : List α} (hne : values ≠ []) {rest : List Token}
    (hend : startsWithSymbol .comma rest = false) :
    (separated rule (separatedTokens spell values ++ rest)).Gives values rest := by
  cases values with
  | nil => exact absurd rfl hne
  | cons first others =>
    rw [separatedTokens, List.append_assoc]
    refine (hrule _ _).bind fun _ => ?_
    exact (afterCommas_spelled hrule others hend).bind fun _ => gives_ok _

end Jack.Reading
