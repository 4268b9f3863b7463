import Jack.Proofs.Class.Spelling
import Jack.Proofs.Markup.Element

/-! Markup of a class. Its tokens are those that spell the class, and the class can be told from it:
statements because reading their tokens gives them back, and declarations, which may be without a
name and then cannot be read, by the elements that they consist of. -/

namespace Jack

open Element

/-! The tokens in the markup of a tree are those that spell it. -/

mutual

theorem Expression.renders_children (e : Expression) : Renders e.children e.tokens := by
  cases e with
  | term value => exact Term.renders_markup value
  | binary left op right =>
    have hright : Renders [symbol op.symbol, right.markup] (.symbol op.symbol :: right.tokens) :=
      .terminal _ (Term.renders_markup right)
    exact (Expression.renders_children left).append hright

theorem Term.renders_markup (t : Term) : Renders [t.markup] t.tokens := by
  cases t with
  | integer value => exact .element .term (.terminal _ .nil)
  | string text => exact .element .term (.terminal _ .nil)
  | constant value => exact .element .term (.terminal _ .nil)
  | «variable» name => exact .element .term (.terminal _ .nil)
  | element array index =>
    have hindex := Expression.renders_children index
    exact .element .term
      (.terminal _ (.terminal _ (.construct .expression hindex (.terminal _ .nil))))
  | parenthesized inner =>
    have hinner := Expression.renders_children inner
    exact .element .term (.terminal _ (.construct .expression hinner (.terminal _ .nil)))
  | unary op operand => exact .element .term (.terminal _ (Term.renders_markup operand))
  | call target => exact .element .term (Call.renders_children target)

theorem Call.renders_children (c : Call) : Renders c.children c.tokens := by
  obtain ⟨receiver, name, arguments⟩ := c
  have hlist := Renders.construct .expressionList (Expression.renders_listChildren arguments)
    (.terminal (.symbol .rightParen) .nil)
  cases receiver with
  | none => exact .terminal _ (.terminal _ hlist)
  | some receiver => exact .terminal _ (.terminal _ (.terminal _ (.terminal _ hlist)))

theorem Expression.renders_listChildren (es : List Expression) :
    Renders (Expression.listChildren es) (Expression.listTokens es) := by
  cases es with
  | nil => exact .nil
  | cons first others =>
    exact .construct .expression (Expression.renders_children first)
      (Expression.renders_afterCommas others)

theorem Expression.renders_afterCommas (es : List Expression) :
    Renders (Expression.afterCommas es) (Expression.commaTokens es) := by
  cases es with
  | nil => exact .nil
  | cons first others =>
    exact .terminal _ (.construct .expression (Expression.renders_children first)
      (Expression.renders_afterCommas others))

end

theorem Expression.renders_markup (e : Expression) : Renders [e.markup] e.tokens :=
  .element .expression e.renders_children

theorem Statement.renders_conditionMarkup (condition : Expression) :
    Renders (conditionMarkup condition) (conditionTokens condition) :=
  .terminal _ (condition.renders_markup.append (.terminal _ .nil))

mutual

theorem Statement.renders_markup (s : Statement) : Renders [s.markup] s.tokens := by
  cases s with
  | «let» target index value =>
    have hvalue := value.renders_markup.append (.terminal (.symbol .semicolon) .nil)
    cases index with
    | none => exact .element .letStatement (.terminal _ (.terminal _ (.terminal _ hvalue)))
    | some index =>
      have hindex := index.renders_markup.append
        (.terminal (.symbol .rightBracket) (.terminal (.symbol .equals) hvalue))
      have htokens : (Statement.let target (some index) value).tokens =
          .keyword .let :: .identifier target :: .symbol .leftBracket :: (index.tokens ++
            .symbol .rightBracket :: .symbol .equals ::
              (value.tokens ++ [.symbol .semicolon])) := by
        simp [Statement.tokens, Statement.indexTokens]
      rw [htokens]
      exact .element .letStatement (.terminal _ (.terminal _ (.terminal _ hindex)))
  | «if» condition thenBody elseBody =>
    have hcondition := Statement.renders_conditionMarkup condition
    have hthen := Statement.renders_blockMarkup thenBody
    cases elseBody with
    | none => exact .element .ifStatement (.terminal _ (hcondition.append hthen))
    | some elseBody =>
      have helse := Statement.renders_blockMarkup elseBody
      have htokens : (Statement.if condition thenBody (some elseBody)).tokens =
          .keyword .if :: (conditionTokens condition ++ (blockTokens (listTokens thenBody) ++
            .keyword .else :: blockTokens (listTokens elseBody))) := by
        simp [Statement.tokens]
      rw [htokens]
      exact .element .ifStatement
        (.terminal _ (hcondition.append (hthen.append (.terminal _ helse))))
  | «while» condition body =>
    have hcondition := Statement.renders_conditionMarkup condition
    have hbody := Statement.renders_blockMarkup body
    exact .element .whileStatement (.terminal _ (hcondition.append hbody))
  | «do» target =>
    have htarget := target.renders_children.append (.terminal (.symbol .semicolon) .nil)
    exact .element .doStatement (.terminal _ htarget)
  | «return» value =>
    cases value with
    | none => exact .element .returnStatement (.terminal _ (.terminal _ .nil))
    | some value =>
      have hvalue := value.renders_markup.append (.terminal (.symbol .semicolon) .nil)
      exact .element .returnStatement (.terminal _ hvalue)

theorem Statement.renders_blockMarkup (ss : List Statement) :
    Renders [symbol .leftBrace, Construct.statements.element (Statement.listChildren ss),
      symbol .rightBrace] (Statement.blockTokens (Statement.listTokens ss)) :=
  .terminal _ (.construct .statements (Statement.renders_listChildren ss) (.terminal _ .nil))

theorem Statement.renders_listChildren (ss : List Statement) :
    Renders (Statement.listChildren ss) (Statement.listTokens ss) := by
  cases ss with
  | nil => exact .nil
  | cons first others =>
    exact (Statement.renders_markup first).append (Statement.renders_listChildren others)

end

/-- Statements can be told from their markup, which has the tokens that they are read from. -/
theorem Statement.listMarkup_injective : Function.Injective Statement.listMarkup := by
  intro ss ss' h
  obtain ⟨-, hchildren⟩ := Element.node.inj h
  have htokens : Statement.listTokens ss = Statement.listTokens ss' := by
    have hrenders := Statement.renders_listChildren ss
    rw [hchildren] at hrenders
    exact hrenders.unique (Statement.renders_listChildren ss')
  have hread := Statement.readList_spelled ss []
  rw [htokens] at hread
  exact hread.unique (Statement.readList_spelled ss' [])

/-! Declarations. -/

theorem ValueType.markup_eq (type : ValueType) : type.markup = .terminal type.token := by
  cases type <;> rfl

theorem ValueType.markup_injective : Function.Injective ValueType.markup := by
  intro type type' h
  rw [markup_eq, markup_eq] at h
  exact (takesOne_read .class).injective (Element.terminal.inj h)

theorem commaSeparated_cons (first : List Element) (others : List (List Element)) :
    commaSeparated (first :: others) = first ++ others.flatMap (symbol .comma :: ·) := by
  induction others generalizing first with
  | nil => simp [commaSeparated]
  | cons second others ih =>
    have hnext := ih second
    unfold commaSeparated at hnext ⊢
    rw [List.intersperse_cons_cons, List.flatten_cons, List.flatten_cons, hnext, List.flatMap_cons]
    rfl

section Lists

variable {α : Type} {markup : α → List Element} {spell : α → List Token}

theorem renders_commaSeparated (h : ∀ v, Renders (markup v) (spell v)) (values : List α) :
    Renders (commaSeparated (values.map markup)) (Reading.separatedTokens spell values) := by
  have hcommas (values : List α) :
      Renders ((values.map markup).flatMap (symbol .comma :: ·))
        (Reading.tokensAfterCommas spell values) := by
    induction values with
    | nil => exact .nil
    | cons first others ih => exact .terminal _ ((h first).append ih)
  cases values with
  | nil => exact .nil
  | cons first others =>
    rw [List.map_cons, commaSeparated_cons]
    exact (h first).append (hcommas others)

theorem renders_map {markup : α → Element} (h : ∀ v, Renders [markup v] (spell v))
    (values : List α) : Renders (values.map markup) (values.flatMap spell) := by
  induction values with
  | nil => exact .nil
  | cons first others ih => exact (h first).append ih

end Lists

theorem renders_namesMarkup (names : List String) :
    Renders (namesMarkup names) (Reading.separatedTokens nameTokens names) :=
  renders_commaSeparated (fun _ => .terminal _ .nil) names

/-- Without the semicolon that ends a declaration, no names at all are told from some. -/
theorem namesMarkup_injective : Function.Injective namesMarkup := by
  intro names names' h
  have htokens : namesTokens names = namesTokens names' := by
    have hrenders := renders_namesMarkup names
    rw [h] at hrenders
    rw [namesTokens, namesTokens, hrenders.unique (renders_namesMarkup names')]
  by_cases hnames : names = [] ∨ names' = []
  · have hlength := congrArg List.length htokens
    rcases hnames with rfl | rfl
    · cases names' with
      | nil => rfl
      | cons => simp [namesTokens, Reading.separatedTokens, nameTokens] at hlength
    · cases names with
      | nil => rfl
      | cons => simp [namesTokens, Reading.separatedTokens, nameTokens] at hlength
  · rw [not_or] at hnames
    have hread := readNames_spelled .varDec hnames.1 []
    rw [htokens] at hread
    exact hread.unique (readNames_spelled .varDec hnames.2 [])

/-! A keyword, a type and names, as declarations of class variables and of local ones have them. -/

theorem renders_declaration (word : Keyword) (type : ValueType) (names : List String) :
    Renders ([keyword word, type.markup] ++ namesMarkup names ++ [symbol .semicolon])
      ([.keyword word, type.token] ++ namesTokens names) := by
  have hnames := (renders_namesMarkup names).append (.terminal (.symbol .semicolon) .nil)
  rw [type.markup_eq, List.append_assoc]
  exact .terminal _ (.terminal _ hnames)

theorem declaration_inj {word word' : Keyword} {type type' : ValueType}
    {names names' : List String}
    (h : [keyword word, type.markup] ++ namesMarkup names ++ [symbol .semicolon] =
      [keyword word', type'.markup] ++ namesMarkup names' ++ [symbol .semicolon]) :
    Token.keyword word = .keyword word' ∧ type = type' ∧ names = names' := by
  rw [List.append_cancel_right_eq] at h
  obtain ⟨hword, hrest⟩ := List.cons.inj h
  obtain ⟨htype, hnames⟩ := List.cons.inj hrest
  exact ⟨Element.terminal.inj hword, ValueType.markup_injective htype,
    namesMarkup_injective hnames⟩

theorem ClassVariables.renders_markup (d : ClassVariables) : Renders [d.markup] d.tokens :=
  .element .classVarDec (renders_declaration d.kind.keyword d.type d.names)

theorem ClassVariables.markup_injective : Function.Injective ClassVariables.markup := by
  rintro ⟨kind, type, names⟩ ⟨kind', type', names'⟩ h
  obtain ⟨hkind, rfl, rfl⟩ := declaration_inj (Element.node.inj h).2
  obtain rfl : kind = kind' := takesOne_readKind.injective hkind
  rfl

theorem Locals.renders_markup (d : Locals) : Renders [d.markup] d.tokens :=
  .element .varDec (renders_declaration .var d.type d.names)

theorem Locals.markup_injective : Function.Injective Locals.markup := by
  rintro ⟨type, names⟩ ⟨type', names'⟩ h
  obtain ⟨-, rfl, rfl⟩ := declaration_inj (Element.node.inj h).2
  rfl

namespace Parameter

theorem renders_listMarkup (ps : List Parameter) :
    Renders [Parameter.listMarkup ps] (Reading.separatedTokens Parameter.tokens ps) := by
  refine .element .parameterList (renders_commaSeparated (fun p => ?_) ps)
  rw [p.type.markup_eq]
  exact .terminal _ (.terminal _ .nil)

theorem listMarkup_injective : Function.Injective Parameter.listMarkup := by
  intro ps ps' h
  have htokens : Reading.separatedTokens tokens ps = Reading.separatedTokens tokens ps' := by
    have hrenders := renders_listMarkup ps
    rw [h] at hrenders
    exact hrenders.unique (renders_listMarkup ps')
  have hread := readList_spelled ps []
  rw [htokens] at hread
  exact hread.unique (readList_spelled ps' [])

end Parameter

namespace SubroutineBody

theorem renders_markup (body : SubroutineBody) : Renders [body.markup] body.tokens := by
  have hlocals := renders_map Locals.renders_markup body.locals
  have hstatements : Renders [Statement.listMarkup body.statements, symbol .rightBrace]
      (Statement.listTokens body.statements ++ [.symbol .rightBrace]) :=
    .construct .statements (Statement.renders_listChildren _) (.terminal _ .nil)
  rw [tokens, List.append_assoc]
  exact .element .subroutineBody (.terminal _ (hlocals.append hstatements))

theorem markup_injective : Function.Injective markup := by
  rintro ⟨locals, statements⟩ ⟨locals', statements'⟩ h
  obtain ⟨-, hchildren⟩ := Element.node.inj h
  obtain ⟨hfront, hback⟩ := List.append_inj' hchildren rfl
  have hlocals : locals.map Locals.markup = locals'.map Locals.markup := (List.cons.inj hfront).2
  obtain rfl : locals = locals' := Locals.markup_injective.list_map hlocals
  obtain rfl : statements = statements' :=
    Statement.listMarkup_injective (List.cons.inj hback).1
  rfl

end SubroutineBody

namespace Subroutine

theorem returnMarkup_eq (type : Option ValueType) :
    Subroutine.returnMarkup type = .terminal (Subroutine.returnToken type) := by
  cases type with
  | none => rfl
  | some type => exact type.markup_eq

theorem returnMarkup_injective : Function.Injective Subroutine.returnMarkup := by
  intro type type' h
  rw [returnMarkup_eq, returnMarkup_eq] at h
  exact takesOne_readReturnType.injective (Element.terminal.inj h)

theorem renders_markup (s : Subroutine) : Renders [s.markup] s.tokens := by
  have hbehind : Renders [symbol .rightParen, s.body.markup]
      (.symbol .rightParen :: s.body.tokens) := .terminal _ s.body.renders_markup
  have hlist := (Parameter.renders_listMarkup s.parameters).append hbehind
  have htokens : s.tokens = .keyword s.kind.keyword :: returnToken s.returnType ::
      .identifier s.name :: .symbol .leftParen ::
        (Reading.separatedTokens Parameter.tokens s.parameters ++
          .symbol .rightParen :: s.body.tokens) := by
    simp [tokens]
  rw [markup, returnMarkup_eq, htokens]
  exact .element .subroutineDec (.terminal _ (.terminal _ (.terminal _ (.terminal _ hlist))))

theorem markup_injective : Function.Injective markup := by
  rintro ⟨kind, type, name, parameters, body⟩ ⟨kind', type', name', parameters', body'⟩ h
  obtain ⟨-, hchildren⟩ := Element.node.inj h
  simp only [List.cons.injEq, Element.keyword, Element.identifier, Element.terminal.injEq,
    Token.identifier.injEq] at hchildren
  obtain ⟨hkind, htype, rfl, -, hparameters, -, hbody, -⟩ := hchildren
  obtain rfl : kind = kind' := takesOne_readKind.injective hkind
  obtain rfl : type = type' := returnMarkup_injective htype
  obtain rfl : parameters = parameters' := Parameter.listMarkup_injective hparameters
  obtain rfl : body = body' := SubroutineBody.markup_injective hbody
  rfl

end Subroutine

namespace Class

theorem renders_markup (c : Class) : Renders [c.markup] c.tokens := by
  have hvarDecs := renders_map ClassVariables.renders_markup c.varDecs
  have hsubroutines := renders_map Subroutine.renders_markup c.subroutines
  have hopening : Renders [keyword .class, identifier c.name, symbol .leftBrace]
      [.keyword .class, .identifier c.name, .symbol .leftBrace] :=
    .terminal _ (.terminal _ (.terminal _ .nil))
  have hclosing : Renders [symbol .rightBrace] [.symbol .rightBrace] := .terminal _ .nil
  exact .element .class (((hopening.append hvarDecs).append hsubroutines).append hclosing)

/-- The element is that of a declaration of class variables. -/
def isVariables : Element → Bool
  | .node tag _ => tag == Construct.classVarDec.name
  | .terminal _ => false

theorem filter_isVariables (varDecs : List ClassVariables) (subroutines : List Subroutine) :
    (varDecs.map ClassVariables.markup ++ subroutines.map Subroutine.markup).filter isVariables =
      varDecs.map ClassVariables.markup := by
  have hvarDecs : ∀ e ∈ varDecs.map ClassVariables.markup, isVariables e := by
    intro e he
    obtain ⟨d, -, rfl⟩ := List.mem_map.mp he
    rfl
  have hsubroutines : ∀ e ∈ subroutines.map Subroutine.markup, ¬ isVariables e := by
    intro e he
    obtain ⟨s, -, rfl⟩ := List.mem_map.mp he
    exact Bool.false_ne_true
  rw [List.filter_append, List.filter_eq_self.mpr hvarDecs, List.filter_eq_nil_iff.mpr hsubroutines,
    List.append_nil]

theorem markup_injective : Function.Injective markup := by
  rintro ⟨name, varDecs, subroutines⟩ ⟨name', varDecs', subroutines'⟩ h
  obtain ⟨-, hchildren⟩ := Element.node.inj h
  rw [List.append_cancel_right_eq, List.append_assoc, List.append_assoc] at hchildren
  obtain ⟨hopening, hmembers⟩ := List.append_inj hchildren rfl
  obtain rfl : name = name' := by
    simpa [identifier] using hopening
  have hvarDecs := congrArg (List.filter isVariables) hmembers
  rw [filter_isVariables, filter_isVariables] at hvarDecs
  obtain rfl : varDecs = varDecs' := ClassVariables.markup_injective.list_map hvarDecs
  have hsubroutines := List.append_cancel_left hmembers
  obtain rfl : subroutines = subroutines' := Subroutine.markup_injective.list_map hsubroutines
  rfl

theorem eq_of_markup_text {c c' : Class} (h : c.markup.text = c'.markup.text) : c = c' := by
  obtain ⟨_, hinside⟩ := c.renders_markup.exists_children
  obtain ⟨_, hinside'⟩ := c'.renders_markup.exists_children
  have hchildren := children_eq_of_text (not_mem_constructName .class) hinside hinside' h
  exact markup_injective (congrArg Construct.class.element hchildren)

theorem tokens_eq_of_markup_text {ts us : List Located}
    (h : (Source.tokensMarkup ts).text = (Source.tokensMarkup us).text) :
    ts.map (·.token) = us.map (·.token) := by
  have htag : '>' ∉ "tokens".toList := by decide
  have hchildren := children_eq_of_text htag (Renders.map_terminal (ts.map Located.token))
    (Renders.map_terminal (us.map Located.token)) h
  have hinjective : Function.Injective terminal := fun _ _ => Element.terminal.inj
  exact hinjective.list_map hchildren

/-- No two classes have one text as markup, and no two lists of tokens but for the lines on which
the tokens stand. -/
theorem markup_text_faithful :
    (∀ c c' : Class, c.markup.text = c'.markup.text ↔ c = c') ∧
      ∀ ts us : List Located, (Source.tokensMarkup ts).text = (Source.tokensMarkup us).text ↔
        ts.map (·.token) = us.map (·.token) := by
  constructor
  · intro c c'
    exact ⟨eq_of_markup_text, fun h => by rw [h]⟩
  · intro ts us
    exact ⟨tokens_eq_of_markup_text, fun h => by rw [Source.tokensMarkup, h, Source.tokensMarkup]⟩

end Class

end Jack
