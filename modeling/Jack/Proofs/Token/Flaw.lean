import Jack.Proofs.Token.Cut

/-! Where a text cannot be cut any further, and why. In front of that place the text is cut into
pieces, as a text with tokens is cut as a whole, and behind it begins one of five things that no
piece can be. The line and the message of a lexical error are those of this place. -/

namespace Jack

/-- The text in front of `rest` is cut into pieces. What may follow a piece is told by all that
stands behind it, `rest` included. -/
inductive CutUpTo (rest : List Char) : List Char → Prop
  | nil : CutUpTo rest []
  | cons {taken front : List Char} {token : Option Token}
      (piece : Piece (front ++ rest) taken token) (tail : CutUpTo rest front) :
      CutUpTo rest (taken ++ front)

/-- How a text begins in front of which no piece can be cut off, with the message about it. -/
inductive Flaw : List Char → String → Prop
  | openComment {more : List Char} (endless : ¬ ['*', '/'] <:+: more) :
      Flaw ('/' :: '*' :: more) "unterminated block comment"
  | openString {body rest : List Char} (inside : ∀ c ∈ body, c ≠ '"' ∧ c ≠ '\n')
      (ends : ∀ c ∈ rest.head?, c = '\n') :
      Flaw ('"' :: body ++ rest) "unterminated string constant"
  | notAscii {before after rest : List Char} {c : Char}
      (inside : ∀ d ∈ before ++ c :: after, d ≠ '"' ∧ d ≠ '\n')
      (first : ∀ d ∈ before, d.toNat < 128) (large : 128 ≤ c.toNat) :
      Flaw ('"' :: (before ++ c :: after) ++ '"' :: rest)
        s!"character '{c}' in string constant is not ASCII"
  | tooLarge {digits rest : List Char} (inside : ∀ c ∈ digits, c.isDigit)
      (ends : ∀ c ∈ rest.head?, c.isDigit = false) (large : 32767 < decimal digits) :
      Flaw (digits ++ rest) s!"integer constant {String.ofList digits} is larger than 32767"
  | unexpected {c : Char} {rest : List Char} (blank : Text.isBlank c = false)
      (symbol : ∀ s : Symbol, s.char ≠ c) (quote : c ≠ '"') (word : isWordStart c = false)
      (digit : c.isDigit = false) : Flaw (c :: rest) s!"unexpected character '{c}'"

theorem commentBody?_eq_none_iff (cs : List Char) :
    commentBody? cs = none ↔ ¬ ['*', '/'] <:+: cs := by
  induction cs using commentBody?.induct with
  | case1 => simp [commentBody?]
  | case2 rest =>
    have hinfix : ['*', '/'] <:+: '*' :: '/' :: rest := ⟨[], rest, rfl⟩
    simp [commentBody?, hinfix]
  | case3 c rest hopen ih =>
    have hhere : ¬ (c = '*' ∧ '/' ∈ rest.head?) := by
      rintro ⟨rfl, hslash⟩
      obtain ⟨after, rfl⟩ := List.head?_eq_some_iff.mp hslash
      exact hopen after rfl rfl
    rw [commentBody?, Option.map_eq_none_iff, ih, infix_cons_iff, not_or]
    · exact (and_iff_right hhere).symm
    · exact hopen

theorem LexicalFault.message_tooLarge (digits : String) :
    (tooLarge digits).message = s!"integer constant {digits} is larger than 32767" := by
  have hlimit : " is larger than " ++ toString maxInteger = " is larger than 32767" := by decide
  show "integer constant " ++ digits ++ " is larger than " ++ toString maxInteger = _
  rw [String.append_assoc, hlimit]
  rfl

theorem isQuotable_iff (c : Char) : isQuotable c = true ↔ c ≠ '"' ∧ c ≠ '\n' := by
  simp [isQuotable]

namespace Lexeme

/-- The scanner takes nothing from the front of the text, and says why. -/
def Refuses (text : List Char) (message : String) : Prop :=
  ∃ c more fault, text = c :: more ∧ next c more = .error fault ∧ fault.message = message

/-- A string constant has a fault if it is not closed or if a character in it is not ASCII. -/
theorem quoted_eq_error_iff {body rest : List Char} (inside : ∀ c ∈ body, isQuotable c)
    (ends : ∀ c ∈ rest.head?, isQuotable c = false) {fault : LexicalFault} :
    quoted (body ++ rest) = .error fault ↔
      (∃ c, rest.head? = some '"' ∧ body.find? (! isAscii ·) = some c ∧ fault = .notAscii c) ∨
      (rest.head? ≠ some '"' ∧ fault = .unterminatedString) := by
  have hbody : (body ++ rest).takeWhile isQuotable = body := takeWhile_append_rest inside ends
  have hrest : (body ++ rest).drop body.length = rest := List.drop_left
  dsimp only [quoted]
  rw [hbody, hrest]
  split
  · next rest =>
    cases hfind : body.find? (! isAscii ·) with
    | none => simp
    | some c => simp [eq_comm]
  · next hopen =>
    have hquote : rest.head? ≠ some '"' := by
      intro hhead
      obtain ⟨after, rfl⟩ := List.head?_eq_some_iff.mp hhead
      exact hopen after rfl
    simp [hquote, eq_comm]

theorem number_eq_error_iff {c : Char} {more : List Char} {fault : LexicalFault} :
    number c more = .error fault ↔ 32767 < decimal (c :: more.takeWhile Char.isDigit) ∧
      fault = .tooLarge (String.ofList (c :: more.takeWhile Char.isDigit)) := by
  dsimp only [number]
  rw [digitsValue_eq_decimal, ← not_le]
  split
  · next hsmall => simp [show decimal _ ≤ 32767 from hsmall]
  · next hlarge => simp [show ¬ decimal _ ≤ 32767 from hlarge, eq_comm]

theorem flaw_of_slash {more : List Char} {fault : LexicalFault}
    (h : slash more = .error fault) : Flaw ('/' :: more) fault.message := by
  unfold slash at h
  split at h
  · cases h
  · next more =>
    split at h
    · cases h
    · next hnone =>
      cases h
      exact .openComment ((commentBody?_eq_none_iff more).mp hnone)
  · cases h

theorem flaw_of_quoted {more : List Char} {fault : LexicalFault}
    (h : quoted more = .error fault) : Flaw ('"' :: more) fault.message := by
  obtain ⟨body, rest, rfl, inside, ends⟩ : ∃ body rest, more = body ++ rest ∧
      (∀ c ∈ body, isQuotable c) ∧ ∀ c ∈ rest.head?, isQuotable c = false :=
    ⟨_, _, List.takeWhile_append_dropWhile.symm, fun c hc => List.mem_takeWhile_imp hc,
      not_head_dropWhile _ _⟩
  have hinside : ∀ c ∈ body, c ≠ '"' ∧ c ≠ '\n' := fun c hc =>
    (isQuotable_iff c).mp (inside c hc)
  rcases (quoted_eq_error_iff inside ends).mp h with ⟨c, hclosed, hfind, rfl⟩ | ⟨hopen, rfl⟩
  · obtain ⟨rest, rfl⟩ := List.head?_eq_some_iff.mp hclosed
    obtain ⟨hc, before, after, rfl, hbefore⟩ := List.find?_eq_some_iff_append.mp hfind
    refine .notAscii hinside ?_ ?_
    · intro d hd
      simpa [isAscii] using hbefore d hd
    · simpa [isAscii] using hc
  · refine .openString hinside ?_
    intro c hc
    -- the run of characters ends at a quote or at a newline
    have hnot : ¬ (c ≠ '"' ∧ c ≠ '\n') := by
      rw [← isQuotable_iff, ends c hc]
      exact Bool.false_ne_true
    by_contra hnewline
    exact hnot ⟨fun hquote => hopen (hquote ▸ hc), hnewline⟩

theorem flaw_of_number {c : Char} {more : List Char} {fault : LexicalFault} (hc : c.isDigit)
    (h : number c more = .error fault) : Flaw (c :: more) fault.message := by
  obtain ⟨hlarge, rfl⟩ := number_eq_error_iff.mp h
  have hwhole : c :: more = c :: more.takeWhile Char.isDigit ++ more.dropWhile Char.isDigit := by
    rw [List.cons_append, List.takeWhile_append_dropWhile]
  rw [hwhole, LexicalFault.message_tooLarge]
  refine .tooLarge ?_ (not_head_dropWhile _ _) hlarge
  exact List.forall_mem_cons.mpr ⟨hc, fun c hc => List.mem_takeWhile_imp hc⟩

theorem flaw_of_next {c : Char} {more : List Char} {fault : LexicalFault}
    (h : next c more = .error fault) : Flaw (c :: more) fault.message := by
  unfold next at h
  split at h
  · exact flaw_of_slash h
  · exact flaw_of_quoted h
  · next hslash hquote =>
    split at h
    · cases h
    · next hsymbol =>
      split at h
      · cases h
      · next hword =>
        split at h
        · next hdigit => exact flaw_of_number hdigit h
        · next hdigit =>
          split at h
          · cases h
          · next hblank =>
            cases h
            refine .unexpected (Bool.eq_false_iff.mpr hblank) ?_ (fun heq => hquote heq)
              (Bool.eq_false_iff.mpr hword) (Bool.eq_false_iff.mpr hdigit)
            rintro s rfl
            rw [Symbol.ofChar?_char] at hsymbol
            cases hsymbol

theorem refuses_openComment {more : List Char} (endless : ¬ ['*', '/'] <:+: more) :
    Refuses ('/' :: '*' :: more) "unterminated block comment" := by
  have hnext : next '/' ('*' :: more) = .error .unterminatedComment := by
    show slash ('*' :: more) = _
    simp only [slash, (commentBody?_eq_none_iff more).mpr endless]
  exact ⟨'/', _, _, rfl, hnext, rfl⟩

theorem refuses_openString {body rest : List Char} (inside : ∀ c ∈ body, c ≠ '"' ∧ c ≠ '\n')
    (ends : ∀ c ∈ rest.head?, c = '\n') :
    Refuses ('"' :: body ++ rest) "unterminated string constant" := by
  have hinside : ∀ c ∈ body, isQuotable c := fun c hc => (isQuotable_iff c).mpr (inside c hc)
  have hends : ∀ c ∈ rest.head?, isQuotable c = false := by
    intro c hc
    rw [ends c hc]
    rfl
  have hopen : rest.head? ≠ some '"' := by
    intro hhead
    cases ends '"' hhead
  have hnext : quoted (body ++ rest) = .error .unterminatedString :=
    (quoted_eq_error_iff hinside hends).mpr (.inr ⟨hopen, rfl⟩)
  exact ⟨'"', body ++ rest, _, rfl, hnext, rfl⟩

theorem refuses_notAscii {before after rest : List Char} {c : Char}
    (inside : ∀ d ∈ before ++ c :: after, d ≠ '"' ∧ d ≠ '\n')
    (first : ∀ d ∈ before, d.toNat < 128) (large : 128 ≤ c.toNat) :
    Refuses ('"' :: (before ++ c :: after) ++ '"' :: rest)
      s!"character '{c}' in string constant is not ASCII" := by
  have hinside : ∀ d ∈ before ++ c :: after, isQuotable d := fun d hd =>
    (isQuotable_iff d).mpr (inside d hd)
  have hends : ∀ d ∈ ('"' :: rest).head?, isQuotable d = false := by
    rintro d ⟨⟩
    rfl
  have hfind : (before ++ c :: after).find? (! isAscii ·) = some c := by
    refine List.find?_eq_some_iff_append.mpr ⟨?_, before, after, rfl, fun d hd => ?_⟩
    · simpa [isAscii] using large
    · simpa [isAscii] using first d hd
  have hnext : quoted ((before ++ c :: after) ++ '"' :: rest) = .error (.notAscii c) :=
    (quoted_eq_error_iff hinside hends).mpr (.inl ⟨c, rfl, hfind, rfl⟩)
  exact ⟨'"', (before ++ c :: after) ++ '"' :: rest, _, rfl, hnext, rfl⟩

theorem refuses_tooLarge {digits rest : List Char} (inside : ∀ c ∈ digits, c.isDigit)
    (ends : ∀ c ∈ rest.head?, c.isDigit = false) (large : 32767 < decimal digits) :
    Refuses (digits ++ rest)
      s!"integer constant {String.ofList digits} is larger than 32767" := by
  cases digits with
  | nil => cases large
  | cons c more =>
    rw [List.forall_mem_cons] at inside
    have hmore : (more ++ rest).takeWhile Char.isDigit = more :=
      takeWhile_append_rest inside.2 ends
    have hnext : next c (more ++ rest) = .error (.tooLarge (String.ofList (c :: more))) := by
      rw [next_digit inside.1, number_eq_error_iff, hmore]
      exact ⟨large, rfl⟩
    exact ⟨c, more ++ rest, _, rfl, hnext, LexicalFault.message_tooLarge _⟩

theorem refuses_unexpected {c : Char} {rest : List Char} (blank : Text.isBlank c = false)
    (symbol : ∀ s : Symbol, s.char ≠ c) (quote : c ≠ '"') (word : isWordStart c = false)
    (digit : c.isDigit = false) : Refuses (c :: rest) s!"unexpected character '{c}'" := by
  have hsymbol : Symbol.ofChar? c = none :=
    Symbol.ofChar?_eq_none (p := (· == c)) (fun s => beq_eq_false_iff_ne.mpr (symbol s))
      (beq_self_eq_true c)
  have hnext : next c rest = .error (.unexpected c) := by
    unfold next
    split
    · exact absurd rfl (symbol .slash)
    · exact absurd rfl quote
    · simp [hsymbol, word, digit, blank]
  exact ⟨c, rest, _, rfl, hnext, rfl⟩

theorem refuses_iff_flaw (text : List Char) (message : String) :
    Refuses text message ↔ Flaw text message := by
  constructor
  · rintro ⟨c, more, fault, rfl, hnext, rfl⟩
    exact flaw_of_next hnext
  · intro flaw
    cases flaw with
    | openComment endless => exact refuses_openComment endless
    | openString inside ends => exact refuses_openString inside ends
    | notAscii inside first large => exact refuses_notAscii inside first large
    | tooLarge inside ends large => exact refuses_tooLarge inside ends large
    | unexpected blank symbol quote word digit =>
      exact refuses_unexpected blank symbol quote word digit

end Lexeme

namespace Located

/-- The scanner goes through all pieces of the front, however its blanks are cut. -/
theorem scan_cutUpTo (line : Nat) {front rest : List Char} (cut : CutUpTo rest front) :
    ∃ ts, scan line (front ++ rest) =
      (scan (line + front.count '\n') rest).map (ts ++ ·) := by
  induction cut generalizing line with
  | nil => exact ⟨[], (map_nil_append _).symm⟩
  | @cons taken front token piece tail ih =>
    obtain ⟨ts, hts⟩ := ih (line + taken.count '\n')
    refine ⟨(token.map fun t => ⟨t, line⟩).toList ++ ts, ?_⟩
    rw [List.append_assoc, scan_piece line piece, hts, List.count_append, Nat.add_assoc]
    cases scan (line + (taken.count '\n' + front.count '\n')) rest with
    | error e => rfl
    | ok others => exact congrArg Except.ok (List.append_assoc _ _ _).symm

theorem exists_flaw_of_scan (line : Nat) (text : List Char) {e : LexicalError}
    (h : scan line text = .error e) :
    ∃ front rest, text = front ++ rest ∧ CutUpTo rest front ∧
      e.line = line + front.count '\n' ∧ Flaw rest e.fault.message := by
  cases text with
  | nil =>
    rw [scan_nil] at h
    cases h
  | cons c more =>
    cases hnext : Lexeme.next c more with
    | error fault =>
      rw [scan, hnext] at h
      cases h
      exact ⟨[], c :: more, rfl, .nil, rfl, Lexeme.flaw_of_next hnext⟩
    | ok lexeme =>
      -- the recursion is on what the scanner leaves
      have hshorter := lexeme.rest_length_lt
      rw [scan_cons hnext] at h
      cases hrest : scan (line + lexeme.taken.count '\n') lexeme.rest with
      | ok others =>
        rw [hrest] at h
        cases h
      | error e' =>
        rw [hrest] at h
        cases h
        obtain ⟨front, rest, hfront, cut, hline, flaw⟩ := exists_flaw_of_scan _ _ hrest
        have piece := Lexeme.piece_of_next hnext
        rw [hfront] at piece
        refine ⟨lexeme.taken ++ front, rest, ?_, .cons piece cut, ?_, flaw⟩
        · rw [List.append_assoc, ← hfront, lexeme.taken_append_rest]
        · rw [hline, List.count_append, Nat.add_assoc]
termination_by text.length

theorem scan_of_flaw (line : Nat) {front rest : List Char} {message : String}
    (cut : CutUpTo rest front) (flaw : Flaw rest message) :
    ∃ e, scan line (front ++ rest) = .error e ∧ e.line = line + front.count '\n' ∧
      e.fault.message = message := by
  obtain ⟨c, more, fault, rfl, hnext, hmessage⟩ :=
    (Lexeme.refuses_iff_flaw rest message).mpr flaw
  obtain ⟨ts, hts⟩ := scan_cutUpTo line cut
  have hstop : scan (line + front.count '\n') (c :: more) =
      .error ⟨line + front.count '\n', fault⟩ := by rw [scan, hnext]
  refine ⟨⟨line + front.count '\n', fault⟩, ?_, rfl, hmessage⟩
  rw [hts, hstop]
  rfl

/-- A text has no tokens exactly if it is cut into pieces up to a flaw, and then the error has the
line of the flaw and says what it is. -/
theorem ofText_fails_at_first_flaw (text : String) (line : Nat) (message : String) :
    (∃ e, ofText text = .error e ∧ e.line = line ∧ e.fault.message = message) ↔
      ∃ front rest, text.toList = front ++ rest ∧ CutUpTo rest front ∧
        line = 1 + front.count '\n' ∧ Flaw rest message := by
  constructor
  · rintro ⟨e, h, rfl, rfl⟩
    exact exists_flaw_of_scan 1 text.toList h
  · rintro ⟨front, rest, htext, cut, rfl, flaw⟩
    obtain ⟨e, h, hline, hmessage⟩ := scan_of_flaw 1 cut flaw
    rw [← htext] at h
    exact ⟨e, h, hline, hmessage⟩

example : ofText "a /*\n*/ 99999" = .error ⟨2, .tooLarge "99999"⟩ := by cbv

end Located

end Jack
