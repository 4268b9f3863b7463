import Mathlib.Data.List.Permutation
import Jack.Grammar.Rule
import Jack.Proofs.Class.Walk

/-! Every rule of the grammar, run alone, takes the longest match. What it took spells what it
built. A longer match could be read in full in front of a token that closes it, and for that the
rule would have to go on where it has stopped. -/

namespace Jack

open Reading Walk

def Node.tokens : Node → List Token
  | .class value => value.tokens
  | .classVariables value => value.tokens
  | .subroutine value => value.tokens
  | .body value => value.tokens
  | .locals value => value.tokens
  | .parameters value => separatedTokens Parameter.tokens value
  | .statements value => Statement.listTokens value
  | .statement value => value.tokens
  | .expression value => value.tokens
  | .term value => value.tokens
  | .expressions value => Expression.listTokens value
  | .call value => value.tokens

namespace Rule

/-- The nodes that a rule can build. -/
inductive Builds : Rule → Node → Prop
  | «class» {c : Class} (names : c.NamesGiven) : Builds (.construct .class) (.class c)
  | classVarDec {d : ClassVariables} (names : d.names ≠ []) :
      Builds (.construct .classVarDec) (.classVariables d)
  | subroutineDec {s : Subroutine} (names : s.NamesGiven) :
      Builds (.construct .subroutineDec) (.subroutine s)
  | subroutineBody {body : SubroutineBody} (names : ∀ d ∈ body.locals, d.names ≠ []) :
      Builds (.construct .subroutineBody) (.body body)
  | varDec {d : Locals} (names : d.names ≠ []) : Builds (.construct .varDec) (.locals d)
  | statements (ss : List Statement) : Builds (.construct .statements) (.statements ss)
  | letStatement {s : Statement} (h : s.opener = .let) :
      Builds (.construct .letStatement) (.statement s)
  | ifStatement {s : Statement} (h : s.opener = .if) :
      Builds (.construct .ifStatement) (.statement s)
  | whileStatement {s : Statement} (h : s.opener = .while) :
      Builds (.construct .whileStatement) (.statement s)
  | doStatement {s : Statement} (h : s.opener = .do) :
      Builds (.construct .doStatement) (.statement s)
  | returnStatement {s : Statement} (h : s.opener = .return) :
      Builds (.construct .returnStatement) (.statement s)
  | expression (e : Expression) : Builds (.construct .expression) (.expression e)
  | term (t : Term) : Builds (.construct .term) (.term t)
  | expressionList (es : List Expression) : Builds (.construct .expressionList) (.expressions es)
  | parameterList (ps : List Parameter) : Builds (.construct .parameterList) (.parameters ps)
  | statement (s : Statement) : Builds .statement (.statement s)
  | call (within : Construct) (c : Call) : Builds (.call within) (.call c)
  | file {c : Class} (names : c.NamesGiven) : Builds .file (.class c)

/-- The tokens are the spelling of a node that the rule can build. -/
def Derives (rule : Rule) (node : Node) (ts : List Token) : Prop :=
  rule.Builds node ∧ node.tokens = ts

def language (rule : Rule) : Language Token := spellings Node.tokens {node | rule.Builds node}

theorem gives_taking_iff {α : Type} {n : Nat} {node : α → Node} {r : Reading α n} {result : Node}
    {rest : List Token} :
    (taking node r).Gives result rest ↔ ∃ value, node value = result ∧ r.Gives value rest :=
  gives_map_iff (fun _ => rfl) fun _ => rfl

theorem gives_spanning_iff {α : Type} {n : Nat} {node : α → Node} {r : Reading α n} {result : Node}
    {rest : List Token} :
    (spanning node r).Gives result rest ↔ ∃ value, node value = result ∧ r.Gives value rest :=
  gives_map_iff (fun _ => rfl) fun _ => rfl

theorem spelled_of_read {rule : Rule} {ts : List Token} {built : Node} {rest : List Token}
    (h : (rule.read ts).Gives built rest) : rule.Builds built ∧ ts = built.tokens ++ rest := by
  rcases rule with construct | _ | within | _
  case construct =>
    cases construct with
    | «class» =>
      obtain ⟨c, rfl, hread⟩ := gives_taking_iff.mp h
      obtain ⟨hts, hnames⟩ := Class.spelled_of_read hread
      exact ⟨.class hnames, hts⟩
    | classVarDec =>
      obtain ⟨d, rfl, hread⟩ := gives_taking_iff.mp h
      obtain ⟨hts, hnames⟩ := ClassVariables.spelled_of_read hread
      exact ⟨.classVarDec hnames, hts⟩
    | subroutineDec =>
      obtain ⟨s, rfl, hread⟩ := gives_taking_iff.mp h
      obtain ⟨hts, hnames⟩ := Subroutine.spelled_of_read hread
      exact ⟨.subroutineDec hnames, hts⟩
    | subroutineBody =>
      obtain ⟨body, rfl, hread⟩ := gives_taking_iff.mp h
      obtain ⟨hts, hnames⟩ := SubroutineBody.spelled_of_read hread
      exact ⟨.subroutineBody hnames, hts⟩
    | varDec =>
      obtain ⟨d, rfl, hread⟩ := gives_taking_iff.mp h
      obtain ⟨hts, hnames⟩ := Locals.spelled_of_read hread
      exact ⟨.varDec hnames, hts⟩
    | statements =>
      obtain ⟨ss, rfl, hread⟩ := gives_spanning_iff.mp h
      exact ⟨.statements ss, Statement.spelled_of_readList ts hread⟩
    | letStatement =>
      obtain ⟨s, rfl, hread⟩ := gives_taking_iff.mp h
      have hts := Statement.spelled_of_readLet hread
      exact ⟨.letStatement (Statement.opener_of_gives Statement.reads_readLet hread hts), hts⟩
    | ifStatement =>
      obtain ⟨s, rfl, hread⟩ := gives_taking_iff.mp h
      have hts := Statement.spelled_of_readIf ts hread
      exact ⟨.ifStatement (Statement.opener_of_gives Statement.reads_readIf hread hts), hts⟩
    | whileStatement =>
      obtain ⟨s, rfl, hread⟩ := gives_taking_iff.mp h
      have hts := Statement.spelled_of_readWhile ts hread
      exact ⟨.whileStatement (Statement.opener_of_gives Statement.reads_readWhile hread hts), hts⟩
    | doStatement =>
      obtain ⟨s, rfl, hread⟩ := gives_taking_iff.mp h
      have hts := Statement.spelled_of_readDo hread
      exact ⟨.doStatement (Statement.opener_of_gives Statement.reads_readDo hread hts), hts⟩
    | returnStatement =>
      obtain ⟨s, rfl, hread⟩ := gives_taking_iff.mp h
      have hts := Statement.spelled_of_readReturn hread
      exact ⟨.returnStatement (Statement.opener_of_gives Statement.reads_readReturn hread hts), hts⟩
    | expression =>
      obtain ⟨e, rfl, hread⟩ := gives_taking_iff.mp h
      exact ⟨.expression e, Expression.spelled_of_read ts hread⟩
    | term =>
      obtain ⟨t, rfl, hread⟩ := gives_taking_iff.mp h
      exact ⟨.term t, Term.spelled_of_read ts hread⟩
    | expressionList =>
      obtain ⟨es, rfl, hread⟩ := gives_spanning_iff.mp h
      exact ⟨.expressionList es, Expression.spelled_of_readList ts hread⟩
    | parameterList =>
      obtain ⟨ps, rfl, hread⟩ := gives_spanning_iff.mp h
      exact ⟨.parameterList ps, Parameter.spelled_of_readList hread⟩
  case statement =>
    obtain ⟨s, rfl, hread⟩ := gives_taking_iff.mp h
    exact ⟨.statement s, Statement.spelled_of_read ts hread⟩
  case call =>
    obtain ⟨c, rfl, hread⟩ := gives_taking_iff.mp h
    exact ⟨.call within c, Call.spelled_of_read within ts hread⟩
  case file =>
    obtain ⟨c, rfl, hread⟩ := gives_taking_iff.mp h
    obtain ⟨⟨hnames, rfl⟩, rfl⟩ := Class.spelled_of_readFile hread
    exact ⟨.file hnames, (List.append_nil _).symm⟩

/-- Tokens that no node of the rule goes on with. -/
def closing : Rule → List Token
  | .file => []
  | .construct .statements => [.symbol .rightBrace]
  | _ => [.symbol .rightParen]

theorem read_spelled {rule : Rule} {node : Node} (h : rule.Builds node) :
    (rule.read (node.tokens ++ rule.closing)).Gives node rule.closing := by
  have hends : Expression.Ends [.symbol .rightParen] := Expression.ends_symbol (by decide) []
  have helse : startsWithKeyword .else [.symbol .rightParen] = false := rfl
  cases h with
  | «class» hnames => exact gives_taking_iff.mpr ⟨_, rfl, Class.read_spelled hnames _⟩
  | classVarDec hnames =>
    exact gives_taking_iff.mpr ⟨_, rfl, ClassVariables.read_spelled hnames _⟩
  | subroutineDec hnames =>
    exact gives_taking_iff.mpr ⟨_, rfl, Subroutine.read_spelled hnames _⟩
  | subroutineBody hnames =>
    exact gives_taking_iff.mpr ⟨_, rfl, SubroutineBody.read_spelled hnames _⟩
  | varDec hnames => exact gives_taking_iff.mpr ⟨_, rfl, Locals.read_spelled hnames _⟩
  | statements ss => exact gives_spanning_iff.mpr ⟨_, rfl, Statement.readList_spelled ss []⟩
  | letStatement hopener =>
    have hread := Statement.read_spelled_of_opener (fun _ => by rw [Statement.read]) hopener helse
    exact gives_taking_iff.mpr ⟨_, rfl, hread⟩
  | ifStatement hopener =>
    have hread := Statement.read_spelled_of_opener (fun _ => by rw [Statement.read]) hopener helse
    exact gives_taking_iff.mpr ⟨_, rfl, hread⟩
  | whileStatement hopener =>
    have hread := Statement.read_spelled_of_opener (fun _ => by rw [Statement.read]) hopener helse
    exact gives_taking_iff.mpr ⟨_, rfl, hread⟩
  | doStatement hopener =>
    have hread := Statement.read_spelled_of_opener (fun _ => by rw [Statement.read]) hopener helse
    exact gives_taking_iff.mpr ⟨_, rfl, hread⟩
  | returnStatement hopener =>
    have hread := Statement.read_spelled_of_opener (fun _ => by rw [Statement.read]) hopener helse
    exact gives_taking_iff.mpr ⟨_, rfl, hread⟩
  | expression e => exact gives_taking_iff.mpr ⟨_, rfl, e.read_spelled hends⟩
  | term t => exact gives_taking_iff.mpr ⟨_, rfl, t.read_spelled hends.1⟩
  | expressionList es => exact gives_spanning_iff.mpr ⟨_, rfl, Expression.readList_spelled es []⟩
  | parameterList ps => exact gives_spanning_iff.mpr ⟨_, rfl, Parameter.readList_spelled ps []⟩
  | statement s => exact gives_taking_iff.mpr ⟨_, rfl, s.read_spelled helse⟩
  | call within c => exact gives_taking_iff.mpr ⟨_, rfl, c.read_spelled within _⟩
  | file hnames =>
    obtain ⟨rest, h⟩ := Class.gives_readFile_iff.mpr ⟨hnames, rfl⟩
    obtain ⟨-, rfl⟩ := Class.spelled_of_readFile h
    rw [closing, List.append_nil]
    exact gives_taking_iff.mpr ⟨_, rfl, h⟩

section

variable {α : Type} {rule : Rule} {node : α → Node} {spell : α → List Token} {values : Set α}
  {N : Nat}

theorem spellings_subset_language
    (hnode : ∀ value ∈ values, rule.Derives (node value) (spell value)) :
    ∀ ts ∈ spellings spell values, ts ∈ rule.language := by
  rintro _ ⟨value, hvalue, rfl⟩
  exact ⟨node value, hnode value hvalue⟩

theorem reads_taking {r : (ts : List Token) → Reading α ts.length}
    (reads : (walk r).Reads N (spellings spell values))
    (hnode : ∀ value ∈ values, rule.Derives (node value) (spell value)) :
    (walk fun ts => taking node (r ts)).Reads N rule.language := by
  have hmap : (walk fun ts => taking node (r ts)).Reads N (spellings spell values) :=
    .map (fun _ _ => rfl) (fun _ _ => rfl) reads
  exact hmap.mono (spellings_subset_language hnode)

theorem reads_spanning {r : (ts : List Token) → Reading α (ts.length + 1)}
    (reads : (walk r).Reads N (spellings spell values))
    (hnode : ∀ value ∈ values, rule.Derives (node value) (spell value)) :
    (walk fun ts => spanning node (r ts)).Reads N rule.language := by
  have hmap : (walk fun ts => spanning node (r ts)).Reads N (spellings spell values) :=
    .map (fun _ _ => rfl) (fun _ _ => rfl) reads
  exact hmap.mono (spellings_subset_language hnode)

end

theorem reads_read (rule : Rule) (N : Nat) : (walk rule.read).Reads N rule.language := by
  rcases rule with construct | _ | within | _
  case construct =>
    cases construct with
    | «class» => exact reads_taking (Class.reads_read N) fun _ h => ⟨.class h, rfl⟩
    | classVarDec =>
      exact reads_taking (ClassVariables.reads_read N) fun _ h => ⟨.classVarDec h, rfl⟩
    | subroutineDec =>
      exact reads_taking (Subroutine.reads_read N) fun _ h => ⟨.subroutineDec h, rfl⟩
    | subroutineBody =>
      exact reads_taking (SubroutineBody.reads_read N) fun _ h => ⟨.subroutineBody h, rfl⟩
    | varDec => exact reads_taking (Locals.reads_read N) fun _ h => ⟨.varDec h, rfl⟩
    | statements =>
      exact reads_spanning (Statement.reads_readList N) fun ss _ => ⟨.statements ss, rfl⟩
    | letStatement =>
      exact reads_taking (Statement.reads_readLet N) fun _ h => ⟨.letStatement h, rfl⟩
    | ifStatement => exact reads_taking (Statement.reads_readIf N) fun _ h => ⟨.ifStatement h, rfl⟩
    | whileStatement =>
      exact reads_taking (Statement.reads_readWhile N) fun _ h => ⟨.whileStatement h, rfl⟩
    | doStatement => exact reads_taking (Statement.reads_readDo N) fun _ h => ⟨.doStatement h, rfl⟩
    | returnStatement =>
      exact reads_taking (Statement.reads_readReturn N) fun _ h => ⟨.returnStatement h, rfl⟩
    | expression => exact reads_taking (Expression.reads N) fun e _ => ⟨.expression e, rfl⟩
    | term => exact reads_taking (Term.reads N) fun t _ => ⟨.term t, rfl⟩
    | expressionList =>
      exact reads_spanning (Expression.reads_list N) fun es _ => ⟨.expressionList es, rfl⟩
    | parameterList =>
      exact reads_spanning (Parameter.reads_readList N) fun ps _ => ⟨.parameterList ps, rfl⟩
  case statement => exact reads_taking (Statement.reads_read N) fun s _ => ⟨.statement s, rfl⟩
  case call => exact reads_taking (Call.reads within N) fun c _ => ⟨.call within c, rfl⟩
  case file => exact reads_taking (Class.reads_readFile N) fun _ h => ⟨.file h, rfl⟩

/-- Had the rule something longer to build, it would not have stopped in front of `next`. -/
theorem not_derives_of_stops {rule : Rule} {node other : Node} {taken more after : List Token}
    {next : Token}
    (h : (rule.read (taken ++ next :: after)).Gives node (next :: after)) :
    ¬ rule.Derives other (taken ++ next :: more) := by
  rintro ⟨hbuilds, htokens⟩
  have hstops : walk rule.read (taken ++ next :: (more ++ rule.closing)) =
      (.ok node, [] ++ next :: (more ++ rule.closing)) :=
    (rule.reads_read _).alike taken (Nat.lt_succ_self _) (gives_iff_outcome.mp h) _
  have hcloses := gives_iff_outcome.mp (read_spelled hbuilds)
  rw [htokens, List.append_assoc, List.cons_append] at hcloses
  have hleft : [] ++ next :: (more ++ rule.closing) = rule.closing :=
    (Prod.mk.inj (hstops.symm.trans hcloses)).2
  have hlength := congrArg List.length hleft
  simp only [List.nil_append, List.length_cons, List.length_append] at hlength
  omega

/-- A rule takes the tokens that spell what it built and leaves the others as they were. No more
tokens from the same place on spell anything that the rule builds. -/
theorem read_takes_longest {rule : Rule} {c stopped : Cursor} {node : Node}
    (h : c.run rule.read = (.ok node, stopped)) :
    ∃ taken, c.remaining = taken ++ stopped.remaining ∧
      rule.Derives node (taken.map (·.token)) ∧
      ∀ longer other, longer <+: c.remaining → taken.length < longer.length →
        ¬ rule.Derives other (longer.map (·.token)) := by
  obtain ⟨left, hgives, hstopped⟩ := Cursor.run_eq_ok_iff.mp h
  obtain ⟨hbuilds, htokens⟩ := spelled_of_read hgives
  obtain ⟨taken, hremaining, htaken, hleft⟩ := Cursor.exists_of_tokens_eq_append htokens
  rw [← hstopped] at hremaining hleft
  refine ⟨taken, hremaining, ⟨hbuilds, htaken.symm⟩, fun longer other hprefix hlt => ?_⟩
  -- a longer prefix goes on with the token in front of which the rule stopped
  obtain ⟨more, rfl⟩ : taken <+: longer :=
    List.prefix_of_prefix_length_le ⟨_, hremaining.symm⟩ hprefix (Nat.le_of_lt hlt)
  rw [hremaining, List.prefix_append_right_inj] at hprefix
  cases more with
  | nil => exact absurd hlt (by simp)
  | cons next more =>
    obtain ⟨after, hafter⟩ := hprefix
    rw [htokens, ← hleft, Cursor.tokens, ← hafter, ← htaken] at hgives
    rw [List.map_append, List.map_cons]
    exact not_derives_of_stops hgives

/-- `x [ 1 ] + f ( ) ; }` -/
def sumAndMore : List Located :=
  [⟨.identifier "x", 1⟩, ⟨.symbol .leftBracket, 1⟩, ⟨.integer 1, 1⟩, ⟨.symbol .rightBracket, 1⟩,
    ⟨.symbol .plus, 1⟩, ⟨.identifier "f", 2⟩, ⟨.symbol .leftParen, 2⟩, ⟨.symbol .rightParen, 2⟩,
    ⟨.symbol .semicolon, 2⟩, ⟨.symbol .rightBrace, 3⟩]

theorem read_takes_longest_sumAndMore :
    ∃ node, Cursor.run (read (.construct .expression)) ⟨sumAndMore, 1⟩ =
        (.ok node, ⟨sumAndMore.drop 8, 2⟩) ∧
      Derives (.construct .expression) node ((sumAndMore.take 8).map (·.token)) ∧
      ∀ other, ¬ Derives (.construct .expression) other ((sumAndMore.take 9).map (·.token)) := by
  have hrun : Cursor.run (read (.construct .expression)) ⟨sumAndMore, 1⟩ =
      (.ok (.expression (.binary (.term (.element "x" (.term (.integer 1)))) .add
        (.call ⟨none, "f", []⟩))), ⟨sumAndMore.drop 8, 2⟩) := by cbv
  obtain ⟨taken, hremaining, hderives, hlongest⟩ := read_takes_longest hrun
  obtain rfl : sumAndMore.take 8 = taken :=
    List.append_cancel_right ((List.take_append_drop 8 sumAndMore).trans hremaining)
  exact ⟨_, hrun, hderives, fun other => hlongest _ other (List.take_prefix 9 _) (by decide)⟩

end Rule

end Jack
