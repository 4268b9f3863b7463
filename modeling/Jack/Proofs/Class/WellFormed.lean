import Jack.Proofs.Class.Spelling
import Jack.Proofs.Token.Printing

/-! Class trees that a source file can hold: their names are identifiers, their numbers are not too
large, their strings can stand between quotes, and every declaration declares something. These are
the trees that reading gives, and each of them is read back from its own spelling. -/

namespace Jack

mutual

def Expression.wellFormed : Expression → Bool
  | .term value => value.wellFormed
  | .binary left _ right => left.wellFormed && right.wellFormed

def Term.wellFormed : Term → Bool
  | .integer value => decide (value.toNat ≤ 32767)
  | .string text => isQuotation text
  | .constant _ => true
  | .variable name => isName name
  | .element array index => isName array && index.wellFormed
  | .parenthesized inner => inner.wellFormed
  | .unary _ operand => operand.wellFormed
  | .call target => target.wellFormed

def Call.wellFormed : Call → Bool
  | .mk receiver name arguments =>
    receiver.all isName && isName name && Expression.listWellFormed arguments

def Expression.listWellFormed : List Expression → Bool
  | [] => true
  | first :: others => first.wellFormed && Expression.listWellFormed others

end

mutual

def Statement.wellFormed : Statement → Bool
  | .let target none value => isName target && value.wellFormed
  | .let target (some index) value => isName target && index.wellFormed && value.wellFormed
  | .if condition thenBody none => condition.wellFormed && listWellFormed thenBody
  | .if condition thenBody (some elseBody) =>
    condition.wellFormed && listWellFormed thenBody && listWellFormed elseBody
  | .while condition body => condition.wellFormed && listWellFormed body
  | .do target => target.wellFormed
  | .return none => true
  | .return (some value) => value.wellFormed

def Statement.listWellFormed : List Statement → Bool
  | [] => true
  | first :: others => first.wellFormed && listWellFormed others

end

def ValueType.wellFormed : ValueType → Bool
  | .int | .char | .boolean => true
  | .object className => isName className

/-- The names of one declaration. -/
def namesWellFormed (names : List String) : Bool := names ≠ [] && names.all isName

def ClassVariables.wellFormed (d : ClassVariables) : Bool :=
  d.type.wellFormed && namesWellFormed d.names

def Parameter.wellFormed (p : Parameter) : Bool := p.type.wellFormed && isName p.name

def Locals.wellFormed (d : Locals) : Bool := d.type.wellFormed && namesWellFormed d.names

def Subroutine.wellFormed (s : Subroutine) : Bool :=
  s.returnType.all ValueType.wellFormed && isName s.name && s.parameters.all Parameter.wellFormed &&
    s.body.locals.all Locals.wellFormed && Statement.listWellFormed s.body.statements

def Class.wellFormed (c : Class) : Bool :=
  isName c.name && c.varDecs.all ClassVariables.wellFormed &&
    c.subroutines.all Subroutine.wellFormed

/-- All tokens can be written. -/
def Token.listWellFormed (ts : List Token) : Bool := ts.all wellFormed

namespace Token

@[simp] theorem listWellFormed_nil : listWellFormed [] = true := rfl

@[simp] theorem listWellFormed_cons (t : Token) (ts : List Token) :
    listWellFormed (t :: ts) = (t.wellFormed && listWellFormed ts) := List.all_cons

@[simp] theorem listWellFormed_append (ts us : List Token) :
    listWellFormed (ts ++ us) = (listWellFormed ts && listWellFormed us) := List.all_append

@[simp] theorem wellFormed_keyword (word : Keyword) : (keyword word).wellFormed = true := rfl

@[simp] theorem wellFormed_symbol (s : Symbol) : (symbol s).wellFormed = true := rfl

@[simp] theorem wellFormed_identifier (name : String) :
    (identifier name).wellFormed = isName name := rfl

end Token

/-! A tree is well formed if its tokens are. -/

mutual

theorem Expression.listWellFormed_tokens (e : Expression) :
    Token.listWellFormed e.tokens = e.wellFormed := by
  cases e with
  | term value => exact Term.listWellFormed_tokens value
  | binary left op right =>
    have hleft := Expression.listWellFormed_tokens left
    have hright := Term.listWellFormed_tokens right
    simp [Expression.tokens, Expression.wellFormed, hleft, hright]

theorem Term.listWellFormed_tokens (t : Term) :
    Token.listWellFormed t.tokens = t.wellFormed := by
  cases t with
  | integer value => exact Bool.and_true _
  | string text => exact Bool.and_true _
  | constant value => rfl
  | «variable» name => exact Bool.and_true _
  | element array index =>
    have hindex := Expression.listWellFormed_tokens index
    simp [Term.tokens, Term.wellFormed, hindex]
  | parenthesized inner =>
    have hinner := Expression.listWellFormed_tokens inner
    simp [Term.tokens, Term.wellFormed, hinner]
  | unary op operand =>
    have hoperand := Term.listWellFormed_tokens operand
    simp [Term.tokens, Term.wellFormed, hoperand]
  | call target => exact Call.listWellFormed_tokens target

theorem Call.listWellFormed_tokens (c : Call) :
    Token.listWellFormed c.tokens = c.wellFormed := by
  obtain ⟨receiver, name, arguments⟩ := c
  have harguments := Expression.listWellFormed_listTokens arguments
  cases receiver <;> simp [Call.tokens, Call.wellFormed, harguments, Bool.and_assoc]

theorem Expression.listWellFormed_listTokens (es : List Expression) :
    Token.listWellFormed (Expression.listTokens es) = Expression.listWellFormed es := by
  cases es with
  | nil => rfl
  | cons first others =>
    have hfirst := Expression.listWellFormed_tokens first
    have hothers := Expression.listWellFormed_commaTokens others
    simp [Expression.listTokens, Expression.listWellFormed, hfirst, hothers]

theorem Expression.listWellFormed_commaTokens (es : List Expression) :
    Token.listWellFormed (Expression.commaTokens es) = Expression.listWellFormed es := by
  cases es with
  | nil => rfl
  | cons first others =>
    have hfirst := Expression.listWellFormed_tokens first
    have hothers := Expression.listWellFormed_commaTokens others
    simp [Expression.commaTokens, Expression.listWellFormed, hfirst, hothers]

end

theorem Statement.listWellFormed_conditionTokens (condition : Expression) :
    Token.listWellFormed (Statement.conditionTokens condition) = condition.wellFormed := by
  simp [Statement.conditionTokens, condition.listWellFormed_tokens]

theorem Statement.listWellFormed_blockTokens (body : List Token) :
    Token.listWellFormed (Statement.blockTokens body) = Token.listWellFormed body := by
  simp [Statement.blockTokens]

mutual

theorem Statement.listWellFormed_tokens (s : Statement) :
    Token.listWellFormed s.tokens = s.wellFormed := by
  cases s with
  | «let» target index value =>
    have hvalue := value.listWellFormed_tokens
    cases index with
    | none => simp [Statement.tokens, Statement.indexTokens, Statement.wellFormed, hvalue]
    | some index =>
      have hindex := index.listWellFormed_tokens
      simp [Statement.tokens, Statement.indexTokens, Statement.wellFormed, hvalue, hindex,
        Bool.and_assoc]
  | «if» condition thenBody elseBody =>
    have hcondition := Statement.listWellFormed_conditionTokens condition
    have hthen := Statement.listWellFormed_listTokens thenBody
    cases elseBody with
    | none =>
      simp [Statement.tokens, Statement.wellFormed, Statement.listWellFormed_blockTokens,
        hcondition, hthen]
    | some body =>
      have helse := Statement.listWellFormed_listTokens body
      simp [Statement.tokens, Statement.wellFormed, Statement.listWellFormed_blockTokens,
        hcondition, hthen, helse, Bool.and_assoc]
  | «while» condition body =>
    have hcondition := Statement.listWellFormed_conditionTokens condition
    have hbody := Statement.listWellFormed_listTokens body
    simp [Statement.tokens, Statement.wellFormed, Statement.listWellFormed_blockTokens,
      hcondition, hbody]
  | «do» target =>
    have htarget := target.listWellFormed_tokens
    simp [Statement.tokens, Statement.wellFormed, htarget]
  | «return» value =>
    cases value with
    | none => rfl
    | some value =>
      have hvalue := value.listWellFormed_tokens
      simp [Statement.tokens, Statement.valueTokens, Statement.wellFormed, hvalue]

theorem Statement.listWellFormed_listTokens (ss : List Statement) :
    Token.listWellFormed (Statement.listTokens ss) = Statement.listWellFormed ss := by
  cases ss with
  | nil => rfl
  | cons first others =>
    have hfirst := Statement.listWellFormed_tokens first
    have hothers := Statement.listWellFormed_listTokens others
    simp [Statement.listTokens, Statement.listWellFormed, hfirst, hothers]

end

namespace Token

variable {α : Type} {spell : α → List Token} {values : List α}

theorem listWellFormed_flatMap :
    listWellFormed (values.flatMap spell) ↔ ∀ v ∈ values, listWellFormed (spell v) := by
  rw [listWellFormed, List.all_flatMap, List.all_eq_true]
  rfl

theorem listWellFormed_separatedTokens :
    listWellFormed (Reading.separatedTokens spell values) ↔
      ∀ v ∈ values, listWellFormed (spell v) := by
  cases values with
  | nil => simp [Reading.separatedTokens]
  | cons first others =>
    have hcommas : listWellFormed (Reading.tokensAfterCommas spell others) ↔
        ∀ v ∈ others, listWellFormed (spell v) := by
      simp [Reading.tokensAfterCommas, listWellFormed_flatMap]
    rw [Reading.separatedTokens, listWellFormed_append, Bool.and_eq_true, hcommas,
      List.forall_mem_cons]

end Token

theorem ValueType.wellFormed_token (type : ValueType) :
    type.token.wellFormed = type.wellFormed := by
  cases type <;> rfl

theorem Subroutine.wellFormed_returnToken (type : Option ValueType) :
    (Subroutine.returnToken type).wellFormed = type.all ValueType.wellFormed := by
  cases type with
  | none => rfl
  | some type => exact type.wellFormed_token

/-! A declaration is well formed if its tokens are and it names what it declares. -/

theorem namesWellFormed_iff (names : List String) :
    namesWellFormed names ↔ names ≠ [] ∧ Token.listWellFormed (namesTokens names) := by
  simp [namesWellFormed, namesTokens, nameTokens, Token.listWellFormed_separatedTokens]

theorem ClassVariables.wellFormed_iff (d : ClassVariables) :
    d.wellFormed ↔ d.names ≠ [] ∧ Token.listWellFormed d.tokens := by
  simp [ClassVariables.wellFormed, ClassVariables.tokens, namesWellFormed_iff,
    d.type.wellFormed_token, and_left_comm]

theorem Locals.wellFormed_iff (d : Locals) :
    d.wellFormed ↔ d.names ≠ [] ∧ Token.listWellFormed d.tokens := by
  simp [Locals.wellFormed, Locals.tokens, namesWellFormed_iff, d.type.wellFormed_token,
    and_left_comm]

theorem Parameter.listWellFormed_tokens (p : Parameter) :
    Token.listWellFormed p.tokens = p.wellFormed := by
  simp [Parameter.wellFormed, Parameter.tokens, p.type.wellFormed_token]

theorem SubroutineBody.listWellFormed_tokens (body : SubroutineBody) :
    Token.listWellFormed body.tokens ↔
      (∀ d ∈ body.locals, Token.listWellFormed d.tokens) ∧
        Statement.listWellFormed body.statements := by
  have hstatements := Statement.listWellFormed_listTokens body.statements
  simp [SubroutineBody.tokens, Token.listWellFormed_flatMap, hstatements]

theorem Subroutine.listWellFormed_tokens (s : Subroutine) :
    Token.listWellFormed s.tokens ↔
      s.returnType.all ValueType.wellFormed ∧ isName s.name ∧ (∀ p ∈ s.parameters, p.wellFormed) ∧
        (∀ d ∈ s.body.locals, Token.listWellFormed d.tokens) ∧
        Statement.listWellFormed s.body.statements := by
  have hparameters : Token.listWellFormed (Reading.separatedTokens Parameter.tokens s.parameters) ↔
      ∀ p ∈ s.parameters, p.wellFormed := by
    simp only [Token.listWellFormed_separatedTokens, Parameter.listWellFormed_tokens]
  simp [Subroutine.tokens, Subroutine.wellFormed_returnToken, hparameters,
    SubroutineBody.listWellFormed_tokens]

theorem Subroutine.wellFormed_iff (s : Subroutine) :
    s.wellFormed ↔ s.NamesGiven ∧ Token.listWellFormed s.tokens := by
  have hlocals : (∀ d ∈ s.body.locals, d.wellFormed) ↔
      s.NamesGiven ∧ ∀ d ∈ s.body.locals, Token.listWellFormed d.tokens := by
    simp only [Locals.wellFormed_iff, Subroutine.NamesGiven, forall₂_and]
  rw [s.listWellFormed_tokens]
  simp only [Subroutine.wellFormed, Bool.and_eq_true, List.all_eq_true, hlocals]
  tauto

namespace Class

theorem wellFormed_iff (c : Class) :
    c.wellFormed ↔ c.NamesGiven ∧ Token.listWellFormed c.tokens := by
  have hvarDecs : (∀ d ∈ c.varDecs, d.wellFormed) ↔
      (∀ d ∈ c.varDecs, d.names ≠ []) ∧ ∀ d ∈ c.varDecs, Token.listWellFormed d.tokens := by
    simp only [ClassVariables.wellFormed_iff, forall₂_and]
  have hsubroutines : (∀ s ∈ c.subroutines, s.wellFormed) ↔
      (∀ s ∈ c.subroutines, s.NamesGiven) ∧
        ∀ s ∈ c.subroutines, Token.listWellFormed s.tokens := by
    simp only [Subroutine.wellFormed_iff, forall₂_and]
  have htokens : Token.listWellFormed c.tokens ↔
      isName c.name ∧ (∀ d ∈ c.varDecs, Token.listWellFormed d.tokens) ∧
        ∀ s ∈ c.subroutines, Token.listWellFormed s.tokens := by
    simp [tokens, Token.listWellFormed_flatMap]
  rw [htokens, NamesGiven]
  simp only [wellFormed, Bool.and_eq_true, List.all_eq_true, hvarDecs, hsubroutines]
  tauto

/-- The spelling of the class, with one space between its tokens. -/
def text (c : Class) : String := Token.listText c.tokens

end Class

namespace Source

theorem parse_eq_ok_iff {text : String} {c : Class} :
    parse text = .ok c ↔ ∃ ts, Located.ofText text = .ok ts ∧ c.Spells (ts.map (·.token)) := by
  have hclass (ts : List Located) : Class.ofTokens ts = .ok c ↔ c.Spells (ts.map (·.token)) :=
    (Class.ofTokens_eq_ok_iff_gives ts c).trans Class.gives_readFile_iff
  unfold parse tokens
  cases Located.ofText text with
  | error e => simp [Except.mapError, bind, Except.bind]
  | ok ts => simp [Except.mapError, bind, Except.bind, hclass]

theorem wellFormed_of_parse {text : String} {c : Class} (h : parse text = .ok c) :
    c.wellFormed := by
  obtain ⟨ts, hscan, hnames, htokens⟩ := parse_eq_ok_iff.mp h
  have hcut : Cut [] text.toList ts := Located.cut_of_scan [] text.toList hscan
  rw [Class.wellFormed_iff, ← htokens]
  exact ⟨hnames, List.all_eq_true.mpr (Token.wellFormed_of_cut hcut)⟩

theorem parse_text {c : Class} (h : c.wellFormed) : parse c.text = .ok c := by
  obtain ⟨hnames, htokens⟩ := c.wellFormed_iff.mp h
  obtain ⟨located, hcut, hlocated⟩ := Token.exists_cut_listText (List.all_eq_true.mp htokens) []
  have hscan : Located.ofText c.text = .ok located := Located.scan_of_cut hcut
  exact parse_eq_ok_iff.mpr ⟨located, hscan, hnames, hlocated⟩

/-- The classes that some text holds are the well-formed ones, and each of them is read back from
its own spelling. -/
theorem parses_exactly_wellFormed :
    (∀ c : Class, (∃ text, parse text = .ok c) ↔ c.wellFormed) ∧
      ∀ c : Class, c.wellFormed → parse c.text = .ok c := by
  refine ⟨fun c => ⟨?_, ?_⟩, fun c h => parse_text h⟩
  · rintro ⟨text, h⟩
    exact wellFormed_of_parse h
  · intro h
    exact ⟨c.text, parse_text h⟩

end Source

/-- A string that looks like a comment and a name that begins like a keyword. -/
def remark : Class where
  name := "_Remark"
  varDecs := [⟨.static, .object "doings", ["int1", "x_"]⟩]
  subroutines := [{
    kind := .constructor
    returnType := none
    name := "new"
    parameters := []
    body := {
      locals := []
      statements := [
        .do (.mk (some "Output") "print" [.term (.string "// /* */"), .term (.integer 32767)]),
        .return none] } }]

theorem Source.parses_exactly_wellFormed_remark :
    remark.wellFormed ∧ parse remark.text = .ok remark ∧ ∃ text, parse text = .ok remark := by
  have h : remark.wellFormed := by decide
  exact ⟨h, parses_exactly_wellFormed.2 remark h, (parses_exactly_wellFormed.1 remark).mpr h⟩

end Jack
