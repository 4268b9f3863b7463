import Mathlib.Data.Set.Operations
import Jack.Proofs.Statement.Spelling
import Jack.Source

/-! The tokens that spell a class. Reading accepts these and no others, and it gives back the
class that they spell, so each class has one spelling and no spelling is that of two classes. A
declaration without a name has no spelling. -/

namespace Jack

open Reading

def ValueType.token : ValueType → Token
  | int => .keyword .int
  | char => .keyword .char
  | boolean => .keyword .boolean
  | object name => .identifier name

def nameTokens (name : String) : List Token := [.identifier name]

def namesTokens (names : List String) : List Token :=
  separatedTokens nameTokens names ++ [.symbol .semicolon]

def ClassVariables.tokens (d : ClassVariables) : List Token :=
  [.keyword d.kind.keyword, d.type.token] ++ namesTokens d.names

def Parameter.tokens (p : Parameter) : List Token := [p.type.token, .identifier p.name]

def Locals.tokens (d : Locals) : List Token :=
  [.keyword .var, d.type.token] ++ namesTokens d.names

def SubroutineBody.tokens (body : SubroutineBody) : List Token :=
  [.symbol .leftBrace] ++ body.locals.flatMap Locals.tokens ++
    Statement.listTokens body.statements ++ [.symbol .rightBrace]

def Subroutine.returnToken : Option ValueType → Token
  | none => .keyword .void
  | some type => type.token

def Subroutine.tokens (s : Subroutine) : List Token :=
  [.keyword s.kind.keyword, Subroutine.returnToken s.returnType, .identifier s.name,
    .symbol .leftParen] ++ separatedTokens Parameter.tokens s.parameters ++
    [.symbol .rightParen] ++ s.body.tokens

def Class.tokens (c : Class) : List Token :=
  [.keyword .class, .identifier c.name, .symbol .leftBrace] ++
    c.varDecs.flatMap ClassVariables.tokens ++ c.subroutines.flatMap Subroutine.tokens ++
    [.symbol .rightBrace]

def Subroutine.NamesGiven (s : Subroutine) : Prop := ∀ d ∈ s.body.locals, d.names ≠ []

/-- Every declaration of variables declares one. -/
def Class.NamesGiven (c : Class) : Prop :=
  (∀ d ∈ c.varDecs, d.names ≠ []) ∧ ∀ s ∈ c.subroutines, s.NamesGiven

theorem ValueType.takesOne_read (construct : Construct) :
    TakesOne (ValueType.read construct) ValueType.token construct "a type" where
  takes type _ := by cases type <;> rfl
  stops ts hts := by
    unfold ValueType.read
    split
    · exact absurd rfl (hts .int _)
    · exact absurd rfl (hts .char _)
    · exact absurd rfl (hts .boolean _)
    · exact absurd rfl (hts (.object _) _)
    · rfl

theorem ValueType.gives_read_iff {construct : Construct} {ts : List Token} {type : ValueType}
    {rest : List Token} :
    (ValueType.read construct ts).Gives type rest ↔ ts = type.token :: rest :=
  (ValueType.takesOne_read construct).gives_iff

theorem spelled_of_readNames {construct : Construct} {ts : List Token} {names : List String}
    {rest : List Token} (h : (readNames construct ts).Gives names rest) :
    ts = namesTokens names ++ rest ∧ names ≠ [] := by
  have hname {ts : List Token} {name : String} {rest : List Token}
      (h : (identifier construct "variable name" ts).Gives name rest) :
      ts = nameTokens name ++ rest := gives_identifier_iff.mp h
  obtain ⟨found, left, _, hfound, h⟩ := h.exists_of_bind
  obtain ⟨⟨⟩, left', _, hclose, h⟩ := h.exists_of_bind
  obtain ⟨rfl, rfl⟩ : found = names ∧ left' = rest := gives_ok_iff.mp h
  obtain ⟨hts, hne⟩ := spelled_of_separated hname hfound
  have hleft : left = .symbol .semicolon :: left' := gives_symbol_iff.mp hclose
  refine ⟨?_, hne⟩
  rw [hts, hleft, namesTokens]
  simp only [List.append_assoc, List.cons_append, List.nil_append]

theorem readNames_spelled (construct : Construct) {names : List String} (hne : names ≠ [])
    (rest : List Token) : (readNames construct (namesTokens names ++ rest)).Gives names rest := by
  have hnames : (separated (identifier construct "variable name")
      (separatedTokens nameTokens names ++ .symbol .semicolon :: rest)).Gives names
        (.symbol .semicolon :: rest) :=
    separated_spelled (fun _ _ => gives_identifier_iff.mpr rfl) hne rfl
  rw [namesTokens, List.append_assoc]
  refine hnames.bind fun _ => ?_
  exact (gives_symbol_iff.mpr rfl).bind fun _ => gives_ok _

namespace ClassVariables

theorem takesOne_readKind :
    TakesOne readKind (fun kind => .keyword kind.keyword) .classVarDec "'static' or 'field'" where
  takes kind _ := by cases kind <;> rfl
  stops ts hts := by
    unfold readKind
    split
    · exact absurd rfl (hts .static _)
    · exact absurd rfl (hts .field _)
    · rfl

theorem gives_readKind_iff {ts : List Token} {kind : ClassVariableKind} {rest : List Token} :
    (readKind ts).Gives kind rest ↔ ts = .keyword kind.keyword :: rest :=
  takesOne_readKind.gives_iff

theorem spelled_of_read {ts : List Token} {d : ClassVariables} {rest : List Token}
    (h : (read ts).Gives d rest) : ts = d.tokens ++ rest ∧ d.names ≠ [] := by
  obtain ⟨kind, left₁, _, hkind, h⟩ := h.exists_of_bind
  obtain ⟨type, left₂, _, htype, h⟩ := h.exists_of_bind
  obtain ⟨names, left₃, _, hnames, h⟩ := h.exists_of_bind
  obtain ⟨rfl, rfl⟩ : ClassVariables.mk kind type names = d ∧ left₃ = rest := gives_ok_iff.mp h
  have h₁ : left₁ = type.token :: left₂ := ValueType.gives_read_iff.mp htype
  obtain ⟨h₂, hne⟩ := spelled_of_readNames hnames
  refine ⟨?_, hne⟩
  rw [gives_readKind_iff.mp hkind, h₁, tokens]
  exact congrArg _ (congrArg _ h₂)

theorem read_spelled {d : ClassVariables} (hne : d.names ≠ []) (rest : List Token) :
    (read (d.tokens ++ rest)).Gives d rest := by
  rw [tokens, List.append_assoc]
  refine (gives_readKind_iff.mpr rfl).bind fun _ => ?_
  refine (ValueType.gives_read_iff.mpr rfl).bind fun _ => ?_
  exact (readNames_spelled .classVarDec hne rest).bind fun _ => gives_ok _

theorem begins_tokens (d : ClassVariables) (rest : List Token) : begins (d.tokens ++ rest) := by
  obtain ⟨kind, type, names⟩ := d
  cases kind <;> rfl

end ClassVariables

namespace Parameter

theorem spelled_of_read {ts : List Token} {p : Parameter} {rest : List Token}
    (h : (read ts).Gives p rest) : ts = p.tokens ++ rest := by
  obtain ⟨type, left₁, _, htype, h⟩ := h.exists_of_bind
  obtain ⟨name, left₂, _, hname, h⟩ := h.exists_of_bind
  obtain ⟨rfl, rfl⟩ : Parameter.mk type name = p ∧ left₂ = rest := gives_ok_iff.mp h
  have h₁ : left₁ = .identifier name :: left₂ := gives_identifier_iff.mp hname
  rw [ValueType.gives_read_iff.mp htype, h₁]
  rfl

theorem read_spelled (p : Parameter) (rest : List Token) :
    (read (p.tokens ++ rest)).Gives p rest := by
  refine (ValueType.gives_read_iff.mpr rfl).bind fun _ => ?_
  exact (gives_identifier_iff.mpr rfl).bind fun _ => gives_ok _

theorem spelled_of_readList {ts : List Token} {ps : List Parameter} {rest : List Token}
    (h : (readList ts).Gives ps rest) : ts = separatedTokens tokens ps ++ rest := by
  unfold readList at h
  split at h
  · obtain ⟨rfl, rfl⟩ := gives_done_iff.mp h
    rfl
  · obtain ⟨found, left, _, hfound, h⟩ := h.exists_of_bind
    obtain ⟨rfl, rfl⟩ : found = ps ∧ left = rest := gives_ok_iff.mp h
    exact (spelled_of_separated spelled_of_read hfound).1

theorem readList_spelled (ps : List Parameter) (rest : List Token) :
    (readList (separatedTokens tokens ps ++ .symbol .rightParen :: rest)).Gives ps
      (.symbol .rightParen :: rest) := by
  cases ps with
  | nil => exact gives_done_iff.mpr ⟨rfl, rfl⟩
  | cons first others =>
    have hparameters : (separated read (separatedTokens tokens (first :: others) ++
        .symbol .rightParen :: rest)).Gives (first :: others) (.symbol .rightParen :: rest) :=
      separated_spelled read_spelled (List.cons_ne_nil _ _) rfl
    have htype : startsWithSymbol .rightParen
        (separatedTokens tokens (first :: others) ++ .symbol .rightParen :: rest) = false := by
      -- a parameter begins with its type, and no type is a parenthesis
      obtain ⟨type, name⟩ := first
      cases type <;> rfl
    rw [readList, if_neg (Bool.eq_false_iff.mp htype)]
    exact hparameters.bind fun _ => gives_ok _

end Parameter

namespace Locals

theorem spelled_of_read {ts : List Token} {d : Locals} {rest : List Token}
    (h : (read ts).Gives d rest) : ts = d.tokens ++ rest ∧ d.names ≠ [] := by
  obtain ⟨⟨⟩, left₁, _, hopen, h⟩ := h.exists_of_bind
  obtain ⟨type, left₂, _, htype, h⟩ := h.exists_of_bind
  obtain ⟨names, left₃, _, hnames, h⟩ := h.exists_of_bind
  obtain ⟨rfl, rfl⟩ : Locals.mk type names = d ∧ left₃ = rest := gives_ok_iff.mp h
  have h₁ : left₁ = type.token :: left₂ := ValueType.gives_read_iff.mp htype
  obtain ⟨h₂, hne⟩ := spelled_of_readNames hnames
  refine ⟨?_, hne⟩
  rw [gives_keyword_iff.mp hopen, h₁, tokens]
  exact congrArg _ (congrArg _ h₂)

theorem read_spelled {d : Locals} (hne : d.names ≠ []) (rest : List Token) :
    (read (d.tokens ++ rest)).Gives d rest := by
  rw [tokens, List.append_assoc]
  refine (gives_keyword_iff.mpr rfl).bind fun _ => ?_
  refine (ValueType.gives_read_iff.mpr rfl).bind fun _ => ?_
  exact (readNames_spelled .varDec hne rest).bind fun _ => gives_ok _

end Locals

/-- No declaration of local variables follows the last one. -/
theorem Statement.not_var_of_begins {ts : List Token} (h : Statement.begins ts) :
    Locals.begins ts = false := by
  unfold Statement.begins at h
  split at h <;> first | rfl | cases h

theorem Statement.listTokens_not_var (ss : List Statement) (rest : List Token) :
    Locals.begins (Statement.listTokens ss ++ .symbol .rightBrace :: rest) = false := by
  cases ss with
  | nil => rfl
  | cons first others =>
    rw [Statement.listTokens, List.append_assoc]
    exact Statement.not_var_of_begins (first.begins_tokens _)

namespace SubroutineBody

theorem spelled_of_read {ts : List Token} {body : SubroutineBody} {rest : List Token}
    (h : (read ts).Gives body rest) :
    ts = body.tokens ++ rest ∧ ∀ d ∈ body.locals, d.names ≠ [] := by
  obtain ⟨⟨⟩, left₁, _, hopen, h⟩ := h.exists_of_bind
  obtain ⟨locals, left₂, _, hlocals, h⟩ := h.exists_of_bind
  obtain ⟨statements, left₃, _, hstatements, h⟩ := h.exists_of_bind
  obtain ⟨⟨⟩, left₄, _, hclose, h⟩ := h.exists_of_bind
  obtain ⟨rfl, rfl⟩ : SubroutineBody.mk locals statements = body ∧ left₄ = rest :=
    gives_ok_iff.mp h
  obtain ⟨h₁, hnames⟩ := spelled_of_many Locals.spelled_of_read _ hlocals
  have h₂ : left₂ = Statement.listTokens statements ++ left₃ :=
    Statement.spelled_of_readList _ hstatements
  have h₃ : left₃ = .symbol .rightBrace :: left₄ := gives_symbol_iff.mp hclose
  refine ⟨?_, hnames⟩
  change left₁ = _ at h₁
  rw [gives_symbol_iff.mp hopen, h₁, h₂, h₃, tokens]
  simp only [List.append_assoc, List.cons_append, List.nil_append]

theorem read_spelled {body : SubroutineBody} (hnames : ∀ d ∈ body.locals, d.names ≠ [])
    (rest : List Token) : (read (body.tokens ++ rest)).Gives body rest := by
  have htokens : body.tokens ++ rest = .symbol .leftBrace :: (body.locals.flatMap Locals.tokens ++
      (Statement.listTokens body.statements ++ .symbol .rightBrace :: rest)) := by
    simp [tokens]
  have hlocals := many_spelled (fun d hd => Locals.read_spelled (hnames d hd))
    (fun d _ => rfl) (Statement.listTokens_not_var body.statements rest)
  rw [htokens]
  refine (gives_symbol_iff.mpr rfl).bind fun _ => ?_
  refine hlocals.bind fun _ => ?_
  refine (Statement.readList_spelled body.statements rest).bind fun _ => ?_
  exact (gives_symbol_iff.mpr rfl).bind fun _ => gives_ok _

end SubroutineBody

namespace Subroutine

theorem takesOne_readKind :
    TakesOne readKind (fun kind => .keyword kind.keyword) .subroutineDec
      "'constructor', 'function' or 'method'" where
  takes kind _ := by cases kind <;> rfl
  stops ts hts := by
    unfold readKind
    split
    · exact absurd rfl (hts .constructor _)
    · exact absurd rfl (hts .function _)
    · exact absurd rfl (hts .method _)
    · rfl

theorem gives_readKind_iff {ts : List Token} {kind : SubroutineKind} {rest : List Token} :
    (readKind ts).Gives kind rest ↔ ts = .keyword kind.keyword :: rest :=
  takesOne_readKind.gives_iff

/-- `void` is read as the type that is not there. -/
theorem takesOne_readReturnType :
    TakesOne readReturnType returnToken .subroutineDec "a type" where
  takes type rest := by
    cases type with
    | none => rfl
    | some type => cases type <;> rfl
  stops ts hts := by
    unfold readReturnType
    split
    · exact absurd rfl (hts none _)
    · rw [(ValueType.takesOne_read .subroutineDec).stops ts fun type rest => hts (some type) rest]
      rfl

theorem gives_readReturnType_iff {ts : List Token} {type : Option ValueType}
    {rest : List Token} :
    (readReturnType ts).Gives type rest ↔ ts = returnToken type :: rest :=
  takesOne_readReturnType.gives_iff

theorem spelled_of_read {ts : List Token} {s : Subroutine} {rest : List Token}
    (h : (read ts).Gives s rest) : ts = s.tokens ++ rest ∧ s.NamesGiven := by
  obtain ⟨kind, left₁, _, hkind, h⟩ := h.exists_of_bind
  obtain ⟨type, left₂, _, htype, h⟩ := h.exists_of_bind
  obtain ⟨name, left₃, _, hname, h⟩ := h.exists_of_bind
  obtain ⟨⟨⟩, left₄, _, hopen, h⟩ := h.exists_of_bind
  obtain ⟨parameters, left₅, _, hparameters, h⟩ := h.exists_of_bind
  obtain ⟨⟨⟩, left₆, _, hclose, h⟩ := h.exists_of_bind
  obtain ⟨body, left₇, _, hbody, h⟩ := h.exists_of_bind
  obtain ⟨rfl, rfl⟩ : Subroutine.mk kind type name parameters body = s ∧ left₇ = rest :=
    gives_ok_iff.mp h
  have h₁ : left₁ = returnToken type :: left₂ := gives_readReturnType_iff.mp htype
  have h₂ : left₂ = .identifier name :: left₃ := gives_identifier_iff.mp hname
  have h₃ : left₃ = .symbol .leftParen :: left₄ := gives_symbol_iff.mp hopen
  have h₄ : left₄ = separatedTokens Parameter.tokens parameters ++ left₅ :=
    Parameter.spelled_of_readList hparameters
  have h₅ : left₅ = .symbol .rightParen :: left₆ := gives_symbol_iff.mp hclose
  obtain ⟨h₆, hnames⟩ := SubroutineBody.spelled_of_read hbody
  change left₆ = _ at h₆
  refine ⟨?_, hnames⟩
  rw [gives_readKind_iff.mp hkind, h₁, h₂, h₃, h₄, h₅, h₆, tokens]
  simp only [List.append_assoc, List.cons_append, List.nil_append]

theorem read_spelled {s : Subroutine} (hnames : s.NamesGiven) (rest : List Token) :
    (read (s.tokens ++ rest)).Gives s rest := by
  have htokens : s.tokens ++ rest = .keyword s.kind.keyword :: returnToken s.returnType ::
      .identifier s.name :: .symbol .leftParen :: (separatedTokens Parameter.tokens s.parameters ++
        .symbol .rightParen :: (s.body.tokens ++ rest)) := by
    simp [tokens]
  rw [htokens]
  refine (gives_readKind_iff.mpr rfl).bind fun _ => ?_
  refine (gives_readReturnType_iff.mpr rfl).bind fun _ => ?_
  refine (gives_identifier_iff.mpr rfl).bind fun _ => ?_
  refine (gives_symbol_iff.mpr rfl).bind fun _ => ?_
  refine (Parameter.readList_spelled s.parameters _).bind fun _ => ?_
  refine (gives_symbol_iff.mpr rfl).bind fun _ => ?_
  exact (SubroutineBody.read_spelled hnames rest).bind fun _ => gives_ok _

theorem begins_tokens (s : Subroutine) (rest : List Token) : begins (s.tokens ++ rest) := by
  obtain ⟨kind, type, name, parameters, body⟩ := s
  cases kind <;> rfl

/-- No declaration of class variables follows the last one. -/
theorem tokens_not_variables (subs : List Subroutine) (rest : List Token) :
    ClassVariables.begins (subs.flatMap tokens ++ .symbol .rightBrace :: rest) = false := by
  cases subs with
  | nil => rfl
  | cons first others =>
    obtain ⟨kind, type, name, parameters, body⟩ := first
    cases kind <;> rfl

end Subroutine

namespace Class

theorem spelled_of_read {ts : List Token} {c : Class} {rest : List Token}
    (h : (read ts).Gives c rest) : ts = c.tokens ++ rest ∧ c.NamesGiven := by
  obtain ⟨⟨⟩, left₁, _, hopen, h⟩ := h.exists_of_bind
  obtain ⟨name, left₂, _, hname, h⟩ := h.exists_of_bind
  obtain ⟨⟨⟩, left₃, _, hbrace, h⟩ := h.exists_of_bind
  obtain ⟨varDecs, left₄, _, hvarDecs, h⟩ := h.exists_of_bind
  obtain ⟨subroutines, left₅, _, hsubroutines, h⟩ := h.exists_of_bind
  obtain ⟨⟨⟩, left₆, _, hclose, h⟩ := h.exists_of_bind
  obtain ⟨rfl, rfl⟩ : Class.mk name varDecs subroutines = c ∧ left₆ = rest := gives_ok_iff.mp h
  have h₁ : left₁ = .identifier name :: left₂ := gives_identifier_iff.mp hname
  have h₂ : left₂ = .symbol .leftBrace :: left₃ := gives_symbol_iff.mp hbrace
  obtain ⟨h₃, hvariables⟩ := spelled_of_many ClassVariables.spelled_of_read _ hvarDecs
  obtain ⟨h₄, hlocals⟩ := spelled_of_many Subroutine.spelled_of_read _ hsubroutines
  have h₅ : left₅ = .symbol .rightBrace :: left₆ := gives_symbol_iff.mp hclose
  change left₃ = _ at h₃
  change left₄ = _ at h₄
  refine ⟨?_, hvariables, hlocals⟩
  rw [gives_keyword_iff.mp hopen, h₁, h₂, h₃, h₄, h₅, tokens]
  simp only [List.append_assoc, List.cons_append, List.nil_append]

theorem read_spelled {c : Class} (hnames : c.NamesGiven) (rest : List Token) :
    (read (c.tokens ++ rest)).Gives c rest := by
  have htokens : c.tokens ++ rest = .keyword .class :: .identifier c.name :: .symbol .leftBrace ::
      (c.varDecs.flatMap ClassVariables.tokens ++
        (c.subroutines.flatMap Subroutine.tokens ++ .symbol .rightBrace :: rest)) := by
    simp [tokens]
  have hvarDecs := many_spelled (fun d hd => ClassVariables.read_spelled (hnames.1 d hd))
    ClassVariables.begins_tokens (Subroutine.tokens_not_variables c.subroutines rest)
  have hsubroutines : (many Subroutine.begins Subroutine.read
      (c.subroutines.flatMap Subroutine.tokens ++ .symbol .rightBrace :: rest)).Gives
        c.subroutines (.symbol .rightBrace :: rest) :=
    many_spelled (fun s hs => Subroutine.read_spelled (hnames.2 s hs)) Subroutine.begins_tokens rfl
  rw [htokens]
  refine (gives_keyword_iff.mpr rfl).bind fun _ => ?_
  refine (gives_identifier_iff.mpr rfl).bind fun _ => ?_
  refine (gives_symbol_iff.mpr rfl).bind fun _ => ?_
  refine hvarDecs.bind fun _ => ?_
  refine hsubroutines.bind fun _ => ?_
  exact (gives_symbol_iff.mpr rfl).bind fun _ => gives_ok _

/-- The tokens are the spelling of the class, with nothing behind its closing brace. -/
def Spells (c : Class) (ts : List Token) : Prop := c.NamesGiven ∧ ts = c.tokens

theorem spelled_of_readFile {ts : List Token} {c : Class} {rest : List Token}
    (h : (readFile ts).Gives c rest) : c.Spells ts ∧ rest = [] := by
  obtain ⟨found, left, hlt, hfile, h⟩ := h.exists_of_bind
  obtain ⟨hts, hnames⟩ := spelled_of_read hfile
  split at h
  · next hempty =>
    obtain ⟨rfl, rfl⟩ := gives_ok_iff.mp h
    rw [show left = [] from List.isEmpty_iff.mp hempty, List.append_nil] at hts
    exact ⟨⟨hnames, hts⟩, List.isEmpty_iff.mp hempty⟩
  · exact absurd h not_gives_unexpected

theorem gives_readFile_iff {ts : List Token} {c : Class} :
    (∃ rest, (readFile ts).Gives c rest) ↔ c.Spells ts := by
  constructor
  · rintro ⟨rest, h⟩
    exact (spelled_of_readFile h).1
  · rintro ⟨hnames, rfl⟩
    have hfile := read_spelled hnames []
    rw [List.append_nil] at hfile
    exact ⟨[], hfile.bind fun _ => gives_ok _⟩

theorem ofTokens_eq_ok_iff_gives (ts : List Located) (c : Class) :
    Class.ofTokens ts = .ok c ↔ ∃ rest, (readFile (ts.map (·.token))).Gives c rest := by
  unfold Class.ofTokens Cursor.run Cursor.tokens
  show _ ↔ ∃ rest, Gives (readFile (ts.map (·.token))) c rest
  cases hread : readFile (ts.map (·.token)) with
  | error failure =>
    refine iff_of_false ?_ ?_
    · simp
    · rintro ⟨rest, hlt, heq⟩
      cases heq
  | ok parsed =>
    show (.ok parsed.value : Except CompileError Class) = .ok c ↔ _
    simp only [gives_ok_iff, Except.ok.injEq, exists_and_left, exists_eq', and_true]

/-- Reading tokens as a class gives back exactly what they spell, on whatever lines the tokens
stand, and no two classes have the same spelling. -/
theorem ofTokens_eq_ok_iff_spells :
    (∀ (ts : List Located) (c : Class),
      Class.ofTokens ts = .ok c ↔ c.Spells (ts.map (·.token))) ∧
    Set.InjOn Class.tokens {c | c.NamesGiven} := by
  constructor
  · intro ts c
    rw [ofTokens_eq_ok_iff_gives, gives_readFile_iff]
  · intro c hc c' hc' htokens
    obtain ⟨rest, hgives⟩ := gives_readFile_iff.mpr ⟨hc, rfl⟩
    obtain ⟨rest', hgives'⟩ := gives_readFile_iff.mpr ⟨hc', htokens⟩
    exact hgives.unique hgives'

end Class

end Jack
