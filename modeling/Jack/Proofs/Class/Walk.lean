import Jack.Proofs.Class.Spelling
import Jack.Proofs.Statement.Walk

/-! The rules for declarations as walks through the spellings of declarations. Reading a file
takes tokens as long as they begin a class, and it fails in front of the first one with which
they do not. -/

namespace Jack

open Reading Walk

instance : Inhabited ValueType := ⟨.int⟩

instance : Inhabited ClassVariableKind := ⟨.static⟩

instance : Inhabited SubroutineKind := ⟨.function⟩

abbrev namesLanguage : Language Token := spellings namesTokens {names | names ≠ []}

instance : Productive namesLanguage := ⟨_, [""], List.cons_ne_nil _ _, rfl⟩

theorem reads_readNames (construct : Construct) (N : Nat) :
    (walk (readNames construct)).Reads N namesLanguage := by
  have hwalk : walk (readNames construct) = do
      let names ← walk (separated (identifier construct "variable name"))
      walk (symbol .semicolon construct)
      return names := by
    funext ts
    exact outcome_bind rfl fun _ => outcome_bind rfl fun _ => rfl
  have names : (walk (separated (identifier construct "variable name"))).Reads N
      (spellings (separatedTokens nameTokens) {names | names ≠ []}) :=
    reads_separated fun N => Reads.identifier construct "variable name"
  rw [hwalk]
  refine (names.bind fun _ => (Reads.symbol _ _).bind fun _ => .pure _).mono ?_
  rintro _ ⟨_, ⟨names, hne, rfl⟩, _, ⟨_, rfl, _, rfl, rfl⟩, rfl⟩
  exact ⟨names, hne, by simp [namesTokens]⟩

namespace ClassVariables

abbrev language : Language Token := spellings tokens {d | d.names ≠ []}

theorem reads_read (N : Nat) : (walk read).Reads N language := by
  have hwalk : walk read = do
      let kind ← walk readKind
      let type ← walk (ValueType.read .classVarDec)
      let names ← walk (readNames .classVarDec)
      return ⟨kind, type, names⟩ := by
    funext ts
    exact outcome_bind rfl fun _ => outcome_bind rfl fun _ => outcome_bind rfl fun _ => rfl
  rw [hwalk]
  refine ((Reads.of_takesOne takesOne_readKind).bind fun _ =>
    (Reads.of_takesOne (ValueType.takesOne_read _)).bind fun _ =>
      (reads_readNames _ N).bind fun _ => .pure _).mono ?_
  rintro _ ⟨_, ⟨kind, -, rfl⟩, _, ⟨_, ⟨type, -, rfl⟩, _, ⟨_, ⟨names, hne, rfl⟩, _, rfl, rfl⟩, rfl⟩,
    rfl⟩
  exact ⟨⟨kind, type, names⟩, hne, by simp [tokens]⟩

end ClassVariables

namespace Parameter

abbrev listLanguage : Language Token := spellings (separatedTokens tokens) Set.univ

instance : Productive listLanguage := ⟨_, [], trivial, rfl⟩

theorem reads_read (N : Nat) : (walk read).Reads N (spellings tokens Set.univ) := by
  have hwalk : walk read = do
      let type ← walk (ValueType.read .parameterList)
      let name ← walk (identifier .parameterList "parameter name")
      return ⟨type, name⟩ := by
    funext ts
    exact outcome_bind rfl fun _ => outcome_bind rfl fun _ => rfl
  rw [hwalk]
  refine ((Reads.of_takesOne (ValueType.takesOne_read _)).bind fun _ =>
    (Reads.identifier _ _).bind fun _ => .pure _).mono ?_
  rintro _ ⟨_, ⟨type, -, rfl⟩, _, ⟨_, ⟨name, -, rfl⟩, _, rfl, rfl⟩, rfl⟩
  exact ⟨⟨type, name⟩, trivial, rfl⟩

theorem reads_readList (N : Nat) : (walk readList).Reads N listLanguage := by
  have hwalk : walk readList = look fun next =>
      if startsWithSymbol .rightParen next.toList then return [] else walk (separated read) := by
    funext ts
    have hhead :
        startsWithSymbol .rightParen ts.head?.toList = startsWithSymbol .rightParen ts := by
      rcases ts with _ | ⟨_ | _ | _ | _ | _, rest⟩ <;> rfl
    show outcome (readList ts) = _
    simp only [readList, look, hhead]
    split
    · rfl
    · exact outcome_rewrap (fun _ => rfl) fun _ => rfl
  rw [hwalk]
  refine .look fun next => ?_
  split
  · refine Reads.mono (.pure _) ?_
    rintro _ rfl
    exact ⟨[], trivial, rfl⟩
  · refine (reads_separated reads_read).mono ?_
    rintro _ ⟨parameters, -, rfl⟩
    exact ⟨parameters, trivial, rfl⟩

end Parameter

namespace Locals

abbrev language : Language Token := spellings tokens {d | d.names ≠ []}

theorem reads_read (N : Nat) : (walk read).Reads N language := by
  have hwalk : walk read = do
      walk (keyword .var .varDec)
      let type ← walk (ValueType.read .varDec)
      let names ← walk (readNames .varDec)
      return ⟨type, names⟩ := by
    funext ts
    exact outcome_bind rfl fun _ => outcome_bind rfl fun _ => outcome_bind rfl fun _ => rfl
  rw [hwalk]
  refine ((Reads.keyword _ _).bind fun _ =>
    (Reads.of_takesOne (ValueType.takesOne_read _)).bind fun _ =>
      (reads_readNames _ N).bind fun _ => .pure _).mono ?_
  rintro _ ⟨_, rfl, _, ⟨_, ⟨type, -, rfl⟩, _, ⟨_, ⟨names, hne, rfl⟩, _, rfl, rfl⟩, rfl⟩, rfl⟩
  exact ⟨⟨type, names⟩, hne, by simp [tokens]⟩

end Locals

namespace SubroutineBody

abbrev language : Language Token := spellings tokens {body | ∀ d ∈ body.locals, d.names ≠ []}

instance : Productive language := ⟨_, ⟨[], []⟩, fun _ hd => absurd hd List.not_mem_nil, rfl⟩

theorem reads_read (N : Nat) : (walk read).Reads N language := by
  have hwalk : walk read = do
      walk (symbol .leftBrace .subroutineBody)
      let locals ← walk (many Locals.begins Locals.read)
      let statements ← walk Statement.readList
      walk (symbol .rightBrace .subroutineBody)
      return ⟨locals, statements⟩ := by
    funext ts
    refine outcome_bind rfl fun _ => outcome_bind rfl fun _ => ?_
    exact outcome_bind rfl fun _ => outcome_bind rfl fun _ => rfl
  have locals : (walk (many Locals.begins Locals.read)).Reads N
      (spellings (List.flatMap Locals.tokens) {ds | ∀ d ∈ ds, d.names ≠ []}) :=
    reads_many (fun token _ => by cases token <;> rfl) (fun _ _ => List.cons_ne_nil _ _)
      Locals.reads_read
  have : Productive (spellings (List.flatMap Locals.tokens) {ds | ∀ d ∈ ds, d.names ≠ []}) :=
    ⟨_, [], fun _ hd => absurd hd List.not_mem_nil, rfl⟩
  rw [hwalk]
  refine ((Reads.symbol _ _).bind fun _ => locals.bind fun _ =>
    (Statement.reads_readList N).bind fun _ => (Reads.symbol _ _).bind fun _ => .pure _).mono ?_
  rintro _ ⟨_, rfl, _, ⟨_, ⟨locals, hlocals, rfl⟩, _, ⟨_, ⟨statements, -, rfl⟩, _,
    ⟨_, rfl, _, rfl, rfl⟩, rfl⟩, rfl⟩, rfl⟩
  exact ⟨⟨locals, statements⟩, hlocals, by simp [tokens]⟩

end SubroutineBody

namespace Subroutine

abbrev language : Language Token := spellings tokens {s | s.NamesGiven}

theorem reads_read (N : Nat) : (walk read).Reads N language := by
  have hwalk : walk read = do
      let kind ← walk readKind
      let type ← walk readReturnType
      let name ← walk (identifier .subroutineDec "subroutine name")
      walk (symbol .leftParen .subroutineDec)
      let parameters ← walk Parameter.readList
      walk (symbol .rightParen .subroutineDec)
      let body ← walk SubroutineBody.read
      return ⟨kind, type, name, parameters, body⟩ := by
    funext ts
    refine outcome_bind rfl fun _ => outcome_bind rfl fun _ => outcome_bind rfl fun _ => ?_
    refine outcome_bind rfl fun _ => outcome_bind rfl fun _ => outcome_bind rfl fun _ => ?_
    exact outcome_bind rfl fun _ => rfl
  rw [hwalk]
  refine ((Reads.of_takesOne takesOne_readKind).bind fun _ =>
    (Reads.of_takesOne takesOne_readReturnType).bind fun _ => (Reads.identifier _ _).bind fun _ =>
      (Reads.symbol _ _).bind fun _ => (Parameter.reads_readList N).bind fun _ =>
        (Reads.symbol _ _).bind fun _ => (SubroutineBody.reads_read N).bind fun _ =>
          .pure _).mono ?_
  rintro _ ⟨_, ⟨kind, -, rfl⟩, _, ⟨_, ⟨type, -, rfl⟩, _, ⟨_, ⟨name, -, rfl⟩, _, ⟨_, rfl, _,
    ⟨_, ⟨parameters, -, rfl⟩, _, ⟨_, rfl, _, ⟨_, ⟨body, hbody, rfl⟩, _, rfl, rfl⟩, rfl⟩, rfl⟩,
    rfl⟩, rfl⟩, rfl⟩, rfl⟩
  exact ⟨⟨kind, type, name, parameters, body⟩, hbody, by simp [tokens]⟩

end Subroutine

namespace Class

abbrev language : Language Token := spellings tokens {c | c.NamesGiven}

theorem reads_read (N : Nat) : (walk read).Reads N language := by
  have hwalk : walk read = do
      walk (keyword .class .class)
      let name ← walk (identifier .class "class name")
      walk (symbol .leftBrace .class)
      let varDecs ← walk (many ClassVariables.begins ClassVariables.read)
      let subroutines ← walk (many Subroutine.begins Subroutine.read)
      walk (symbol .rightBrace .class)
      return ⟨name, varDecs, subroutines⟩ := by
    funext ts
    refine outcome_bind rfl fun _ => outcome_bind rfl fun _ => outcome_bind rfl fun _ => ?_
    exact outcome_bind rfl fun _ => outcome_bind rfl fun _ => outcome_bind rfl fun _ => rfl
  have varDecs : (walk (many ClassVariables.begins ClassVariables.read)).Reads N
      (spellings (List.flatMap ClassVariables.tokens) {ds | ∀ d ∈ ds, d.names ≠ []}) :=
    reads_many (fun token _ => by cases token <;> rfl) (fun _ _ => List.cons_ne_nil _ _)
      ClassVariables.reads_read
  have subroutines : (walk (many Subroutine.begins Subroutine.read)).Reads N
      (spellings (List.flatMap Subroutine.tokens) {ss | ∀ s ∈ ss, s.NamesGiven}) :=
    reads_many (fun token _ => by cases token <;> rfl) (fun _ _ => by simp [Subroutine.tokens])
      Subroutine.reads_read
  have : Productive (spellings (List.flatMap ClassVariables.tokens)
      {ds | ∀ d ∈ ds, d.names ≠ []}) := ⟨_, [], fun _ hd => absurd hd List.not_mem_nil, rfl⟩
  have : Productive (spellings (List.flatMap Subroutine.tokens) {ss | ∀ s ∈ ss, s.NamesGiven}) :=
    ⟨_, [], fun _ hs => absurd hs List.not_mem_nil, rfl⟩
  rw [hwalk]
  refine ((Reads.keyword _ _).bind fun _ => (Reads.identifier _ _).bind fun _ =>
    (Reads.symbol _ _).bind fun _ => varDecs.bind fun _ => subroutines.bind fun _ =>
      (Reads.symbol _ _).bind fun _ => .pure _).mono ?_
  rintro _ ⟨_, rfl, _, ⟨_, ⟨name, -, rfl⟩, _, ⟨_, rfl, _, ⟨_, ⟨varDecs, hvarDecs, rfl⟩, _,
    ⟨_, ⟨subroutines, hsubroutines, rfl⟩, _, ⟨_, rfl, _, rfl, rfl⟩, rfl⟩, rfl⟩, rfl⟩, rfl⟩, rfl⟩
  exact ⟨⟨name, varDecs, subroutines⟩, ⟨hvarDecs, hsubroutines⟩, by simp [tokens]⟩

theorem reads_readFile (N : Nat) : (walk readFile).Reads N language := by
  have hwalk : walk readFile = (do
      let file ← walk read
      look fun next => match next with
        | none => return file
        | some _ => fail (.class, "end of file")) := by
    funext ts
    refine outcome_bind rfl fun file => ?_
    obtain ⟨c, _ | ⟨token, rest⟩, hlt⟩ := file <;> rfl
  rw [hwalk]
  refine ((reads_read N).bind fun file => (.look fun next => ?_ : Reads N 1 _)).mono ?_
  · split
    · exact .pure _
    · exact .fail _
  · rintro _ ⟨_, ⟨c, hc, rfl⟩, _, rfl, rfl⟩
    exact ⟨c, hc, (List.append_nil _).symm⟩

/-- More tokens can follow to make up a class. -/
def Begin (ts : List Token) : Prop := ∃ more, ∃ c : Class, c.Spells (ts ++ more)

theorem walk_of_spells {c : Class} {ts : List Token} (h : c.Spells ts) :
    ∃ left, walk readFile ts = (.ok c, left) := by
  obtain ⟨left, hgives⟩ := gives_readFile_iff.mpr h
  exact ⟨left, gives_iff_outcome.mp hgives⟩

/-- A walk that stops in front of a token would stop there whatever tokens came behind it, and
so no class begins with the tokens up to that one. -/
theorem not_begin_of_walk_eq_error {taken rest : List Token} {next : Token} {miss : Miss}
    (h : walk readFile (taken ++ next :: rest) = (.error miss, next :: rest)) :
    ¬ Begin (taken ++ [next]) := by
  rintro ⟨more, c, hspells⟩
  rw [List.append_assoc, List.singleton_append] at hspells
  obtain ⟨left, hwalk⟩ := walk_of_spells hspells
  have hstops : walk readFile (taken ++ next :: more) = (.error miss, [] ++ next :: more) :=
    (reads_readFile _).alike taken (Nat.lt_succ_self _) h more
  rw [hwalk] at hstops
  cases hstops

/-- The tokens in front of a syntax error begin some class, but with the token that the error is
about they do not; an error about the end of the file is right in that no class ends there. -/
theorem readFile_stops_at_first_misfit {ts : List Located} {stopped : Cursor}
    {error : CompileError} (h : Cursor.run readFile ⟨ts, 1⟩ = (.error error, stopped)) :
    ∃ taken line construct expected found,
      ts = taken ++ stopped.remaining ∧
      Begin (taken.map (·.token)) ∧
      error = .grammatical line construct expected (stopped.peek 0) ∧
      error.message =
        s!"line {line}: syntax error in {construct.name}: expected {expected}, found {found}" ∧
      match stopped.remaining with
      | next :: _ =>
        ¬ Begin (taken.map (·.token) ++ [next.token]) ∧
        found = next.token.description ∧ line = next.line
      | [] =>
        (∀ c : Class, ¬ c.Spells (taken.map (·.token))) ∧
        found = "end of file" ∧ line = (taken.getLast?.map (·.line)).getD 1 := by
  obtain ⟨construct, expected, left, hwalk, hstopped, herror⟩ := Cursor.exists_of_run_eq_error h
  obtain ⟨before, more, ⟨c, hc, hspelling⟩, htokens⟩ :=
    (reads_readFile _).error (Nat.lt_succ_self _) hwalk
  obtain ⟨taken, rest, rfl, rfl, rfl⟩ := List.map_eq_append_iff.mp htokens
  have hbegin : Begin (taken.map (·.token)) := ⟨more, c, hc, hspelling.symm⟩
  rw [List.length_map, Cursor.moveTo_append] at hstopped
  subst hstopped
  refine ⟨taken, _, construct, expected, _, rfl, hbegin, herror, congrArg _ herror, ?_⟩
  rw [Cursor.tokens, List.map_append] at hwalk
  cases rest with
  | cons next rest =>
    rw [List.map_cons] at hwalk
    exact ⟨not_begin_of_walk_eq_error hwalk, rfl, rfl⟩
  | nil =>
    refine ⟨fun c hspells => ?_, rfl, rfl⟩
    obtain ⟨left, hok⟩ := walk_of_spells hspells
    rw [List.map_nil, List.append_nil, hok] at hwalk
    cases hwalk

/-- `class Main { function int half() { return 1 + ; } }` on four lines -/
def unfinishedSum : List Located :=
  [⟨.keyword .class, 1⟩, ⟨.identifier "Main", 1⟩, ⟨.symbol .leftBrace, 1⟩,
    ⟨.keyword .function, 2⟩, ⟨.keyword .int, 2⟩, ⟨.identifier "half", 2⟩,
    ⟨.symbol .leftParen, 2⟩, ⟨.symbol .rightParen, 2⟩, ⟨.symbol .leftBrace, 2⟩,
    ⟨.keyword .return, 3⟩, ⟨.integer 1, 3⟩, ⟨.symbol .plus, 3⟩, ⟨.symbol .semicolon, 3⟩,
    ⟨.symbol .rightBrace, 3⟩, ⟨.symbol .rightBrace, 4⟩]

theorem readFile_stops_at_first_misfit_unfinishedSum :
    Cursor.run readFile ⟨unfinishedSum, 1⟩ =
      (.error (.grammatical 3 .term "a term" (some (.symbol .semicolon))),
        ⟨unfinishedSum.drop 12, 3⟩) ∧
    Begin ((unfinishedSum.take 12).map (·.token)) ∧
    ¬ Begin ((unfinishedSum.take 13).map (·.token)) := by
  have hrun : Cursor.run readFile ⟨unfinishedSum, 1⟩ =
      (.error (.grammatical 3 .term "a term" (some (.symbol .semicolon))),
        ⟨unfinishedSum.drop 12, 3⟩) := by cbv
  obtain ⟨taken, _, _, _, _, hts, hbegin, -, -, hnot, -⟩ := readFile_stops_at_first_misfit hrun
  obtain rfl : unfinishedSum.take 12 = taken :=
    List.append_cancel_right ((List.take_append_drop 12 unfinishedSum).trans hts)
  exact ⟨hrun, hbegin, hnot⟩

end Class

end Jack
