import Jack.Proofs.Class.Occurrence
import Jack.Proofs.Class.WellFormed
import Jack.Proofs.Grammar.Walk

/-! Layout. Two texts with the same tokens, whatever stands between them, are the same class and the
same program, or they have the same fault at the same token. Only the line of a fault of grammar
tells them apart, and it is the line of that token in either text. -/

namespace Jack

open Occurrence

namespace Cursor

variable {c c' : Cursor}

/-- The line of a fault at the token with this number, or behind the end that of the last token. -/
def lineAt (c : Cursor) (position : Nat) : Nat :=
  ((c.remaining[position]?.or c.remaining.getLast?).map (·.line)).getD c.lastLine

theorem peek_moveTo (c : Cursor) (left : Nat) :
    (c.moveTo left).peek 0 = c.peek (c.remaining.length - left) := by
  simp [moveTo, peek]

theorem line_moveTo (c : Cursor) (left : Nat) :
    (c.moveTo left).line = c.lineAt (c.remaining.length - left) := by
  unfold line moveTo lineAt
  cases hnext : c.remaining[c.remaining.length - left]? with
  | none =>
    have hall : c.remaining.length ≤ c.remaining.length - left := List.getElem?_eq_none_iff.mp hnext
    simp only [List.drop_eq_nil_of_le hall, List.take_of_length_le hall, Option.none_or]
  | some next =>
    obtain ⟨hlt, hget⟩ := List.getElem?_eq_some_iff.mp hnext
    simp only [List.drop_eq_getElem_cons hlt, hget]
    rfl

theorem peek_eq (h : c.tokens = c'.tokens) (n : Nat) : c.peek n = c'.peek n := by
  have hget := congrArg (·[n]?) h
  simpa [tokens, peek] using hget

theorem length_eq (h : c.tokens = c'.tokens) : c.remaining.length = c'.remaining.length := by
  have hlength := congrArg List.length h
  simpa [tokens] using hlength

/-- A run is the walk of the rule, with the line put on a failure. -/
theorem run_eq_walk {α : Type} {bound : List Token → Nat}
    (rule : (ts : List Token) → Reading α (bound ts)) (c : Cursor) :
    c.run rule =
      let (answer, left) := Reading.walk rule c.tokens
      let stopped := c.moveTo left.length
      (answer.mapError fun (construct, expected) =>
        .grammatical stopped.line construct expected (stopped.peek 0), stopped) := by
  unfold run Reading.walk
  cases rule c.tokens <;> rfl

end Cursor

/-- The same error about two lists of tokens, which may have other lines. -/
inductive CompileError.Same (c c' : Cursor) : CompileError → CompileError → Prop
  | grammatical {construct expected found} (position : Nat) :
    c.peek position = found → c'.peek position = found →
    Same c c' (.grammatical (c.lineAt position) construct expected found)
      (.grammatical (c'.lineAt position) construct expected found)
  | undefined {name} : Same c c' (.undefined name) (.undefined name)
  | duplicate {name} : Same c c' (.duplicate name) (.duplicate name)

/-- The same value, or the same error about two lists of tokens. -/
inductive SameResult {α : Type} (c c' : Cursor) :
    Except CompileError α → Except CompileError α → Prop
  | ok (value : α) : SameResult c c' (.ok value) (.ok value)
  | error {e e' : CompileError} : e.Same c c' e' → SameResult c c' (.error e) (.error e')

variable {α β : Type} {c c' : Cursor}

theorem SameResult.bind {r r' : Except CompileError α} {f : α → Except CompileError β}
    (h : SameResult c c' r r') (next : ∀ a, SameResult c c' (f a) (f a)) :
    SameResult c c' (r >>= f) (r' >>= f) := by
  cases h with
  | ok value => exact next value
  | error h => exact .error h

/-- A rule sees no lines, so it stops at the same token on both sides. -/
theorem Cursor.run_same {bound : List Token → Nat}
    (rule : (ts : List Token) → Reading α (bound ts)) (h : c.tokens = c'.tokens) :
    SameResult c c' (c.run rule).1 (c'.run rule).1 ∧
      ∃ left, (c.run rule).2 = c.moveTo left ∧ (c'.run rule).2 = c'.moveTo left := by
  rw [run_eq_walk, run_eq_walk, ← h]
  obtain ⟨answer, left⟩ := Reading.walk rule c.tokens
  refine ⟨?_, left.length, rfl, rfl⟩
  cases answer with
  | ok value => exact .ok value
  | error miss =>
    refine .error ?_
    simp only [line_moveTo, peek_moveTo, ← length_eq h, ← peek_eq h]
    exact .grammatical _ rfl (peek_eq h _).symm

theorem Class.same_code (t : Class) : SameResult c c' t.code t.code := by
  cases hcode : t.code with
  | ok p => exact .ok p
  | error e =>
    obtain ⟨-, o, -, -, -, -, rfl⟩ :=
      firstFault_eq_some_iff.mp ((t.fault?_code).symm.trans (fault?_eq_some_iff.mpr hcode))
    -- a name that offends has no line
    cases o with
    | declared name taken => exact .error .duplicate
    | used name known => exact .error .undefined

namespace Source

variable {text text' : String} {ts ts' : List Located}

theorem parse_eq_run (h : Located.ofText text = .ok ts) :
    parse text = (Cursor.run Class.readFile ⟨ts, 1⟩).1 := by
  rw [parse, tokens, h]
  rfl

theorem same_parse (h : Located.ofText text = .ok ts) (h' : Located.ofText text' = .ok ts')
    (alike : ts.map (·.token) = ts'.map (·.token)) :
    SameResult ⟨ts, 1⟩ ⟨ts', 1⟩ (parse text) (parse text') := by
  have htokens : Cursor.tokens ⟨ts, 1⟩ = Cursor.tokens ⟨ts', 1⟩ := alike
  rw [parse_eq_run h, parse_eq_run h']
  exact (Cursor.run_same Class.readFile htokens).1

theorem same_compile (h : Located.ofText text = .ok ts) (h' : Located.ofText text' = .ok ts')
    (alike : ts.map (·.token) = ts'.map (·.token)) :
    SameResult ⟨ts, 1⟩ ⟨ts', 1⟩ (compile text) (compile text') :=
  (same_parse h h' alike).bind fun t => t.same_code

/-- Texts with the same tokens are the same class and have the same program, or what is wrong with
one is wrong with the other, with each text's own line for the token that it is about. -/
theorem layout_has_no_meaning (h : Located.ofText text = .ok ts)
    (h' : Located.ofText text' = .ok ts') (alike : ts.map (·.token) = ts'.map (·.token)) :
    SameResult ⟨ts, 1⟩ ⟨ts', 1⟩ (parse text) (parse text') ∧
      SameResult ⟨ts, 1⟩ ⟨ts', 1⟩ (compile text) (compile text') :=
  ⟨same_parse h h' alike, same_compile h h' alike⟩

end Source

/-- The beginning of a class on one line, and with comments on three. -/
def unclosed : String × String := ("class A\x7b", "class/**/A // \x7d\n\n\x7b")

def unclosedTokens (line : Nat) : List Located :=
  [⟨.keyword .class, 1⟩, ⟨.identifier "A", 1⟩, ⟨.symbol .leftBrace, line⟩]

theorem ofText_unclosed :
    Located.ofText unclosed.1 = .ok (unclosedTokens 1) ∧
      Located.ofText unclosed.2 = .ok (unclosedTokens 3) := by
  have hfree (k : Keyword) : k.text.toList ≠ ['A'] := by cases k <;> exact nofun
  have hempty : ¬ ['*', '/'] <:+: [] := by simp
  have hbody : '\n' ∉ [' ', '\x7d'] := by simp
  have hends {p : Char → Prop} {c : Char} {rest : List Char} (h : p c) :
      ∀ d ∈ (c :: rest).head?, p d := by
    rintro d ⟨⟩
    exact h
  have hblank {run : List Char} (h : run.all Text.isBlank) : ∀ c ∈ run, Text.isBlank c :=
    List.all_eq_true.mp h
  constructor
  · have hcut : Cut [] (Keyword.class.text.toList ++ ([' '] ++ (['A'] ++ (['\x7b'] ++ [])))) _ :=
      .cons (.keyword (hends rfl)) <|
      .cons (.blank (List.cons_ne_nil _ _) (hblank rfl)) <|
      .cons (.identifier rfl nofun (hends rfl) hfree) <|
      .cons (.symbol (s := .leftBrace) nofun) <| .nil _
    exact Located.scan_of_cut hcut
  · have hcut : Cut [] (Keyword.class.text.toList ++ (['/', '*', '*', '/'] ++ (['A'] ++ ([' '] ++
        (['/', '/', ' ', '\x7d'] ++ (['\n', '\n'] ++ (['\x7b'] ++ []))))))) _ :=
      .cons (.keyword (hends rfl)) <|
      .cons (.blockComment hempty) <|
      .cons (.identifier rfl nofun (hends rfl) hfree) <|
      .cons (.blank (List.cons_ne_nil _ _) (hblank rfl)) <|
      .cons (.lineComment hbody (hends rfl)) <|
      .cons (.blank (List.cons_ne_nil _ _) (hblank rfl)) <|
      .cons (.symbol (s := .leftBrace) nofun) <| .nil _
    exact Located.scan_of_cut hcut

theorem layout_has_no_meaning_unclosed :
    ∃ ts ts', Located.ofText unclosed.1 = .ok ts ∧ Located.ofText unclosed.2 = .ok ts' ∧
      ts.map (·.token) = ts'.map (·.token) ∧
      Source.compile unclosed.1 = .error (.grammatical 1 .class "'\x7d'" none) ∧
      Source.compile unclosed.2 = .error (.grammatical 3 .class "'\x7d'" none) ∧
      SameResult ⟨ts, 1⟩ ⟨ts', 1⟩ (Source.compile unclosed.1) (Source.compile unclosed.2) := by
  obtain ⟨h, h'⟩ := ofText_unclosed
  have hrun (line : Nat) : Cursor.run Class.readFile ⟨unclosedTokens line, 1⟩ =
      (.error (.grammatical line .class "'\x7d'" none), ⟨[], line⟩) := by cbv
  have hcompile : Source.compile unclosed.1 = .error (.grammatical 1 .class "'\x7d'" none) := by
    rw [Source.compile, Source.parse_eq_run h, hrun]
    rfl
  have hcompile' : Source.compile unclosed.2 = .error (.grammatical 3 .class "'\x7d'" none) := by
    rw [Source.compile, Source.parse_eq_run h', hrun]
    rfl
  exact ⟨_, _, h, h', rfl, hcompile, hcompile', (Source.layout_has_no_meaning h h' rfl).2⟩

/-! Lines without tokens. A newline ends every piece that could go on behind it, so lines of blanks
and comments can be put in between any two lines. -/

theorem forall_mem_head_newline {p : Char → Prop} {rest : List Char} (h : ∀ c ∈ rest.head?, p c)
    (hp : p '\n') (more : List Char) : ∀ c ∈ (rest ++ '\n' :: more).head?, p c := by
  cases rest with
  | nil =>
    rintro _ ⟨⟩
    exact hp
  | cons first rest => exact h

theorem Piece.before_newline {rest taken : List Char} {token : Option Token}
    (piece : Piece rest taken token) (more : List Char) :
    Piece (rest ++ '\n' :: more) taken token := by
  cases piece with
  | blank nonempty inside => exact .blank nonempty inside
  | lineComment inside ends => exact .lineComment inside (forall_mem_head_newline ends rfl more)
  | blockComment inside => exact .blockComment inside
  | symbol alone =>
    exact .symbol fun hslash => forall_mem_head_newline (alone hslash) (by decide) more
  | string inside => exact .string inside
  | keyword ends => exact .keyword (forall_mem_head_newline ends rfl more)
  | identifier starts inside ends free =>
    exact .identifier starts inside (forall_mem_head_newline ends rfl more) free
  | integer nonempty inside ends bounded =>
    exact .integer nonempty inside (forall_mem_head_newline ends rfl more) bounded

namespace Cut

theorem before_newline {before text more : List Char} {ts us : List Located}
    (first : Cut before text ts) (second : Cut (before ++ text) ('\n' :: more) us) :
    Cut before (text ++ '\n' :: more) (ts ++ us) := by
  induction first with
  | nil before => rwa [List.append_nil] at second
  | cons piece tail ih =>
    rw [← List.append_assoc] at second
    rw [List.append_assoc, List.append_assoc]
    exact .cons (piece.before_newline more) (ih second)

/-- Behind another text the tokens are the same, on other lines. -/
theorem exists_moved {before text : List Char} {ts : List Located} (cut : Cut before text ts)
    (before' : List Char) :
    ∃ ts', Cut before' text ts' ∧ ts'.map (·.token) = ts.map (·.token) := by
  induction cut generalizing before' with
  | nil => exact ⟨[], .nil before', rfl⟩
  | @cons _ _ _ token _ piece _ ih =>
    obtain ⟨others, tail, hothers⟩ := ih (before' ++ _)
    refine ⟨_, .cons piece tail, ?_⟩
    rw [List.map_append, List.map_append, hothers]
    cases token <;> rfl

end Cut

namespace Located

variable {above below : String} {ts us : List Located}

theorem exists_ofText_lines (habove : ofText above = .ok ts) (hbelow : ofText below = .ok us) :
    ∃ vs, ofText (above ++ "\n" ++ below) = .ok vs ∧
      vs.map (·.token) = ts.map (·.token) ++ us.map (·.token) := by
  rw [ofText_eq_ok_iff_cut] at habove hbelow
  obtain ⟨us', hmoved, htokens⟩ := hbelow.exists_moved ([] ++ above.toList ++ ['\n'])
  have hblank : ∀ c ∈ ['\n'], Text.isBlank c := List.all_eq_true.mp rfl
  have hnewline : Piece below.toList ['\n'] none := .blank (List.cons_ne_nil _ _) hblank
  have hcut := habove.before_newline (.cons hnewline hmoved)
  refine ⟨ts ++ us', ?_, by rw [List.map_append, htokens]⟩
  rw [ofText_eq_ok_iff_cut]
  simpa using hcut

end Located

/-- Lines of blanks and comments in between two lines have no meaning. -/
theorem Source.gap_has_no_meaning {above gap below : String} {ts us : List Located}
    (habove : Located.ofText above = .ok ts) (hgap : Located.ofText gap = .ok [])
    (hbelow : Located.ofText below = .ok us) :
    ∃ vs vs', Located.ofText (above ++ "\n" ++ below) = .ok vs ∧
      Located.ofText (above ++ "\n" ++ gap ++ "\n" ++ below) = .ok vs' ∧
      SameResult ⟨vs, 1⟩ ⟨vs', 1⟩ (compile (above ++ "\n" ++ below))
        (compile (above ++ "\n" ++ gap ++ "\n" ++ below)) := by
  obtain ⟨vs, hvs, htokens⟩ := Located.exists_ofText_lines habove hbelow
  obtain ⟨ws, hws, hmiddle⟩ := Located.exists_ofText_lines habove hgap
  obtain ⟨vs', hvs', htokens'⟩ := Located.exists_ofText_lines hws hbelow
  have alike : vs.map (·.token) = vs'.map (·.token) := by
    rw [htokens, htokens', hmiddle, List.map_nil, List.append_nil]
  exact ⟨vs, vs', hvs, hvs', same_compile hvs hvs' alike⟩

end Jack
