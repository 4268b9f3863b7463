import Mathlib.Data.List.Infix
import Mathlib.Data.List.TakeWhile
import Mathlib.Data.Nat.Digits.Defs
import Jack.Proofs.Text
import Jack.Token.Scan

/-! The pieces that a text may be cut into, told without a scanner: what characters each kind of
piece has, what may follow it, and which token it spells. The piece that the scanner takes from
the front of a text is one of these, and there is no other way to cut one off, except that a run
of blanks may be cut short. -/

namespace Jack

/-- The number that decimal digits write. -/
def decimal (digits : List Char) : Nat :=
  Nat.ofDigits 10 (digits.map fun c => c.toNat - '0'.toNat).reverse

/-- What can stand in front of `rest` as one piece of a text, with the token that it spells. -/
inductive Piece (rest : List Char) : List Char → Option Token → Prop
  | blank {run : List Char} (nonempty : run ≠ []) (inside : ∀ c ∈ run, Text.isBlank c) :
      Piece rest run none
  | lineComment {body : List Char} (inside : '\n' ∉ body) (ends : ∀ c ∈ rest.head?, c = '\n') :
      Piece rest ('/' :: '/' :: body) none
  | blockComment {body : List Char} (inside : ¬ ['*', '/'] <:+: body) :
      Piece rest ('/' :: '*' :: body ++ ['*', '/']) none
  | symbol {s : Symbol} (alone : s = .slash → ∀ c ∈ rest.head?, c ≠ '/' ∧ c ≠ '*') :
      Piece rest [s.char] (some (.symbol s))
  | string {body : List Char} (inside : ∀ c ∈ body, c.toNat < 128 ∧ c ≠ '"' ∧ c ≠ '\n') :
      Piece rest ('"' :: body ++ ['"']) (some (.string (String.ofList body)))
  | keyword {k : Keyword} (ends : ∀ c ∈ rest.head?, isWordPart c = false) :
      Piece rest k.text.toList (some (.keyword k))
  | identifier {first : Char} {more : List Char} (starts : isWordStart first)
      (inside : ∀ c ∈ more, isWordPart c) (ends : ∀ c ∈ rest.head?, isWordPart c = false)
      (free : ∀ k : Keyword, k.text.toList ≠ first :: more) :
      Piece rest (first :: more) (some (.identifier (String.ofList (first :: more))))
  | integer {digits : List Char} (nonempty : digits ≠ []) (inside : ∀ c ∈ digits, c.isDigit)
      (ends : ∀ c ∈ rest.head?, c.isDigit = false) (bounded : decimal digits ≤ 32767) :
      Piece rest digits (some (.integer (UInt32.ofNat (decimal digits))))

theorem foldl_digits (digits : List Char) (n : Nat) :
    digits.foldl (fun value digit => 10 * value + (digit.toNat - '0'.toNat)) n =
      n * 10 ^ digits.length + decimal digits := by
  induction digits generalizing n with
  | nil =>
    show n = n * 10 ^ 0 + 0
    rw [pow_zero, mul_one, add_zero]
  | cons d ds ih =>
    have hlength : (ds.map fun c => c.toNat - '0'.toNat).reverse.length = ds.length := by
      rw [List.length_reverse, List.length_map]
    rw [List.foldl_cons, ih, decimal, decimal, List.map_cons, List.reverse_cons,
      Nat.ofDigits_append, Nat.ofDigits_singleton, hlength, List.length_cons]
    ring

theorem digitsValue_eq_decimal (digits : List Char) : digitsValue digits = decimal digits := by
  rw [digitsValue, foldl_digits, zero_mul, zero_add]

/-! Classes of characters. -/

/-- A character of a class that no symbol belongs to is no symbol. -/
theorem Symbol.ofChar?_eq_none {p : Char → Bool} (hp : ∀ s : Symbol, p s.char = false) {c : Char}
    (hc : p c) : Symbol.ofChar? c = none := by
  cases hs : Symbol.ofChar? c with
  | none => rfl
  | some s =>
    have hchar := hp s
    rw [Symbol.char_of_ofChar? hs, hc] at hchar
    cases hchar

theorem isWordStart_symbol (s : Symbol) : isWordStart s.char = false := by
  cases s <;> decide

theorem isDigit_symbol (s : Symbol) : s.char.isDigit = false := by
  cases s <;> decide

theorem isBlank_symbol (s : Symbol) : Text.isBlank s.char = false := by
  cases s <;> decide

theorem isDigit_iff (c : Char) : c.isDigit = true ↔ 48 ≤ c.toNat ∧ c.toNat ≤ 57 := by
  simp [Char.isDigit, UInt32.le_iff_toNat_le]

theorem isWordStart_iff (c : Char) :
    isWordStart c = true ↔
      (65 ≤ c.toNat ∧ c.toNat ≤ 90) ∨ (97 ≤ c.toNat ∧ c.toNat ≤ 122) ∨ c.toNat = 95 := by
  have hupper : c.isUpper = true ↔ 65 ≤ c.toNat ∧ c.toNat ≤ 90 := by
    show decide (c.val ≥ 65 ∧ c.val ≤ 90) = true ↔ _
    simp [UInt32.le_iff_toNat_le]
  have hlower : c.isLower = true ↔ 97 ≤ c.toNat ∧ c.toNat ≤ 122 := by
    show (decide (c.val ≥ 97) && decide (c.val ≤ 122)) = true ↔ _
    simp [UInt32.le_iff_toNat_le]
  have hunderscore : c = '_' ↔ c.toNat = 95 := by
    rw [← Char.toNat_inj]
    rfl
  show (c.isUpper || c.isLower || c == '_') = true ↔ _
  rw [Bool.or_eq_true, Bool.or_eq_true, hupper, hlower, beq_iff_eq, hunderscore, or_assoc]

theorem not_isWordStart_of_isDigit {c : Char} (h : c.isDigit) : isWordStart c = false := by
  rw [isDigit_iff] at h
  rw [← Bool.not_eq_true, isWordStart_iff]
  omega

theorem not_isWordStart_of_isBlank {c : Char} (h : Text.isBlank c) : isWordStart c = false := by
  simp [Text.isBlank, Text.blankRanges] at h
  rw [← Bool.not_eq_true, isWordStart_iff]
  omega

theorem not_isDigit_of_isBlank {c : Char} (h : Text.isBlank c) : c.isDigit = false := by
  simp [Text.isBlank, Text.blankRanges] at h
  rw [← Bool.not_eq_true, isDigit_iff]
  omega

/-! The bodies of comments. -/

theorem infix_cons_iff {c : Char} {body : List Char} :
    ['*', '/'] <:+: c :: body ↔ (c = '*' ∧ '/' ∈ body.head?) ∨ ['*', '/'] <:+: body := by
  rw [List.infix_cons_iff, List.cons_prefix_cons]
  cases body with
  | nil => simp
  | cons d body => simp [eq_comm]

theorem commentBody?_append {body : List Char} (inside : ¬ ['*', '/'] <:+: body)
    (rest : List Char) : commentBody? (body ++ '*' :: '/' :: rest) = some body.length := by
  induction body with
  | nil => rfl
  | cons c body ih =>
    rw [infix_cons_iff, not_or] at inside
    rw [List.cons_append, commentBody?, ih inside.2, Option.map_some, List.length_cons]
    -- the body with what follows it has no end of a comment before its own
    rintro after rfl heq
    cases body with
    | nil => cases heq
    | cons d body =>
      rw [List.cons_append, List.cons.injEq] at heq
      exact inside.1 ⟨rfl, by rw [heq.1]; rfl⟩

theorem exists_of_commentBody? {cs : List Char} {n : Nat} (h : commentBody? cs = some n) :
    ∃ body rest, cs = body ++ '*' :: '/' :: rest ∧ body.length = n ∧
      ¬ ['*', '/'] <:+: body := by
  induction cs using commentBody?.induct generalizing n with
  | case1 => cases h
  | case2 rest =>
    cases h
    exact ⟨[], rest, rfl, rfl, by simp⟩
  | case3 c rest hopen ih =>
    rw [commentBody?, Option.map_eq_some_iff] at h
    · obtain ⟨m, hm, rfl⟩ := h
      obtain ⟨body, rest', rfl, rfl, inside⟩ := ih hm
      refine ⟨c :: body, rest', rfl, rfl, ?_⟩
      rw [infix_cons_iff, not_or]
      refine ⟨?_, inside⟩
      rintro ⟨rfl, hslash⟩
      cases body with
      | nil => cases hslash
      | cons d body =>
        cases hslash
        exact hopen _ rfl rfl
    · exact hopen

/-! What the scanner takes from the front of a text is a piece. -/

theorem Keyword.mem_all (k : Keyword) : k ∈ Keyword.all := by
  cases k <;> decide

theorem Keyword.exists_word (k : Keyword) :
    ∃ first more, k.text.toList = first :: more ∧ isWordStart first ∧ more.all isWordPart := by
  cases k <;> exact ⟨_, _, rfl, rfl, rfl⟩

theorem Keyword.ofText?_eq_none_iff {word : String} :
    Keyword.ofText? word = none ↔ ∀ k : Keyword, k.text ≠ word := by
  unfold Keyword.ofText?
  rw [List.find?_eq_none]
  constructor
  · intro h k heq
    exact h k k.mem_all (beq_iff_eq.mpr heq)
  · intro h k _ heq
    exact h k (beq_iff_eq.mp heq)

theorem Piece.word {rest : List Char} {first : Char} {more : List Char}
    (starts : isWordStart first) (inside : ∀ c ∈ more, isWordPart c)
    (ends : ∀ c ∈ rest.head?, isWordPart c = false) :
    Piece rest (first :: more) (some (wordToken (first :: more))) := by
  cases hk : Keyword.ofText? (String.ofList (first :: more)) with
  | none =>
    have htoken : wordToken (first :: more) = .identifier (String.ofList (first :: more)) := by
      simp only [wordToken, hk]
    rw [htoken]
    -- the search went through all keywords, so the word spells none of them
    refine .identifier starts inside ends ?_
    intro k heq
    rw [Keyword.ofText?_eq_none_iff] at hk
    exact hk k (by rw [← heq, String.ofList_toList])
  | some k =>
    have htoken : wordToken (first :: more) = .keyword k := by simp only [wordToken, hk]
    have htext : k.text = String.ofList (first :: more) := by
      simpa using List.find?_some hk
    have hspelled : first :: more = k.text.toList := by rw [htext, String.toList_ofList]
    rw [htoken, hspelled]
    exact .keyword ends

namespace Lexeme

theorem piece_of_slash {more : List Char} {lexeme : Lexeme ('/' :: more)}
    (h : slash more = .ok lexeme) : Piece lexeme.rest lexeme.taken lexeme.token := by
  unfold slash at h
  split at h
  · next more =>
    cases h
    have hends := not_head_dropWhile (· != '\n') ('/' :: more)
    refine .lineComment ?_ ?_
    · intro hmem
      have hinside := List.mem_takeWhile_imp hmem
      simp at hinside
    · intro c hc
      simpa using hends c hc
  · next more =>
    split at h
    · next n hbody =>
      cases h
      obtain ⟨body, rest, rfl, rfl, inside⟩ := exists_of_commentBody? hbody
      show Piece ((body ++ '*' :: '/' :: rest).drop (body.length + 2))
        ('/' :: '*' :: (body ++ '*' :: '/' :: rest).take (body.length + 2)) none
      rw [List.take_length_add_append, List.drop_length_add_append]
      exact .blockComment inside
    · cases h
  · next hline hblock =>
    cases h
    show Piece more [Symbol.slash.char] (some (.symbol .slash))
    refine .symbol fun _ c hc => ⟨?_, ?_⟩
    · rintro rfl
      obtain ⟨after, hmore⟩ := List.head?_eq_some_iff.mp hc
      exact hline after hmore
    · rintro rfl
      obtain ⟨after, hmore⟩ := List.head?_eq_some_iff.mp hc
      exact hblock after hmore

theorem piece_of_quoted {more : List Char} {lexeme : Lexeme ('"' :: more)}
    (h : quoted more = .ok lexeme) : Piece lexeme.rest lexeme.taken lexeme.token := by
  dsimp only [quoted] at h
  split at h
  · next tail hdrop =>
    split at h
    · cases h
    · next hascii =>
      cases h
      have hwhole := List.prefix_iff_eq_append.mp (List.takeWhile_prefix isQuotable (l := more))
      have inside : ∀ c ∈ more.takeWhile isQuotable, c.toNat < 128 ∧ c ≠ '"' ∧ c ≠ '\n' := by
        intro c hc
        have hquotable := List.mem_takeWhile_imp hc
        have hsmall := List.find?_eq_none.mp hascii c hc
        simp_all [isQuotable, isAscii]
      -- name the body, so that the text can be written with the closing quote in sight
      rw [hdrop] at hwhole
      generalize more.takeWhile isQuotable = body at hwhole inside ⊢
      subst hwhole
      show Piece ((body ++ '"' :: tail).drop (body.length + 1))
        ('"' :: (body ++ '"' :: tail).take (body.length + 1)) _
      rw [List.take_length_add_append, List.drop_length_add_append]
      exact .string inside
  · cases h

theorem piece_of_number {first : Char} {more : List Char} {lexeme : Lexeme (first :: more)}
    (hfirst : first.isDigit) (h : number first more = .ok lexeme) :
    Piece lexeme.rest lexeme.taken lexeme.token := by
  dsimp only [number] at h
  split at h
  · next hbounded =>
    cases h
    show Piece (more.dropWhile Char.isDigit) (first :: more.takeWhile Char.isDigit)
      (some (.integer (UInt32.ofNat (digitsValue (first :: more.takeWhile Char.isDigit)))))
    rw [digitsValue_eq_decimal] at hbounded ⊢
    refine .integer (List.cons_ne_nil _ _) ?_ (not_head_dropWhile _ _) hbounded
    exact List.forall_mem_cons.mpr ⟨hfirst, fun c hc => List.mem_takeWhile_imp hc⟩
  · cases h

theorem piece_of_next {c : Char} {more : List Char} {lexeme : Lexeme (c :: more)}
    (h : next c more = .ok lexeme) : Piece lexeme.rest lexeme.taken lexeme.token := by
  unfold next at h
  split at h
  · exact piece_of_slash h
  · exact piece_of_quoted h
  · next hslash hquote =>
    split at h
    · next s hs =>
      cases h
      have hchar := Symbol.char_of_ofChar? hs
      subst hchar
      refine .symbol ?_
      rintro rfl
      exact absurd rfl hslash
    · split at h
      · next hword =>
        cases h
        exact .word hword (fun c hc => List.mem_takeWhile_imp hc) (not_head_dropWhile _ _)
      · split at h
        · next hdigit => exact piece_of_number hdigit h
        · split at h
          · next hblank =>
            cases h
            refine .blank (List.cons_ne_nil _ _) ?_
            exact List.forall_mem_cons.mpr ⟨hblank, fun c hc => List.mem_takeWhile_imp hc⟩
          · cases h

/-! A piece that is not blank is what the scanner takes. -/

/-- The scanner takes these characters from the front of the text. -/
def Takes (text taken : List Char) (token : Option Token) (rest : List Char) : Prop :=
  ∃ c more, text = c :: more ∧ ∃ lexeme, next c more = .ok lexeme ∧ lexeme.taken = taken ∧
    lexeme.token = token ∧ lexeme.rest = rest

theorem takes_run {p : Char → Bool} {c : Char} {more rest : List Char}
    (token : List Char → Option Token)
    (hnext : next c (more ++ rest) = .ok (run p c (more ++ rest) token))
    (inside : ∀ c ∈ more, p c) (ends : ∀ c ∈ rest.head?, p c = false) :
    Takes (c :: more ++ rest) (c :: more) (token (c :: more)) rest := by
  have htaken := takeWhile_append_rest inside ends
  refine ⟨c, more ++ rest, rfl, _, hnext, congrArg (c :: ·) htaken, ?_, ?_⟩
  · exact congrArg (fun cs => token (c :: cs)) htaken
  · exact dropWhile_append_rest inside ends

theorem takes_first {c : Char} {more rest : List Char} {token : Option Token}
    (hnext : next c (more ++ rest) = .ok (first more.length c (more ++ rest) token)) :
    Takes (c :: more ++ rest) (c :: more) token rest := by
  refine ⟨c, more ++ rest, rfl, _, hnext, ?_, rfl, ?_⟩
  · exact congrArg (c :: ·) List.take_left
  · exact List.drop_left

/-- The first character of a word, of a number or of a run of blanks is neither `/`, which may
begin a comment, nor a quote, nor any symbol. -/
theorem next_of_class {p : Char → Bool} (hsymbol : ∀ s : Symbol, p s.char = false)
    (hquote : p '"' = false) {c : Char} (hc : p c) (more : List Char) :
    next c more =
      if isWordStart c then .ok (run isWordPart c more fun word => some (wordToken word))
      else if c.isDigit then number c more
      else if Text.isBlank c then .ok (run Text.isBlank c more fun _ => none)
      else .error (.unexpected c) := by
  unfold next
  split
  · rw [show p '/' = false from hsymbol .slash] at hc
    cases hc
  · rw [hquote] at hc
    cases hc
  · rw [Symbol.ofChar?_eq_none hsymbol hc]

theorem next_word {c : Char} (hc : isWordStart c) (more : List Char) :
    next c more = .ok (run isWordPart c more fun word => some (wordToken word)) := by
  rw [next_of_class isWordStart_symbol (by decide) hc, if_pos hc]

theorem next_digit {c : Char} (hc : c.isDigit) (more : List Char) :
    next c more = number c more := by
  rw [next_of_class isDigit_symbol (by decide) hc, not_isWordStart_of_isDigit hc, if_pos hc]
  rfl

theorem next_blank {c : Char} (hc : Text.isBlank c) (more : List Char) :
    next c more = .ok (run Text.isBlank c more fun _ => none) := by
  rw [next_of_class isBlank_symbol (by decide) hc, not_isWordStart_of_isBlank hc,
    not_isDigit_of_isBlank hc, if_pos hc]
  rfl

theorem takes_lineComment {body rest : List Char} (inside : '\n' ∉ body)
    (ends : ∀ c ∈ rest.head?, c = '\n') :
    Takes ('/' :: '/' :: body ++ rest) ('/' :: '/' :: body) none rest := by
  have hinside : ∀ c ∈ '/' :: body, (c != '\n') = true := by
    refine List.forall_mem_cons.mpr ⟨rfl, fun c hc => ?_⟩
    rw [bne_iff_ne]
    rintro rfl
    exact inside hc
  have hends : ∀ c ∈ rest.head?, (c != '\n') = false := by
    intro c hc
    rw [ends c hc]
    rfl
  exact takes_run (fun _ => none) rfl hinside hends

theorem takes_blockComment {body : List Char} (inside : ¬ ['*', '/'] <:+: body)
    (rest : List Char) :
    Takes ('/' :: '*' :: body ++ ['*', '/'] ++ rest) ('/' :: '*' :: body ++ ['*', '/']) none
      rest := by
  have hbody : commentBody? (body ++ ['*', '/'] ++ rest) = some body.length := by
    rw [List.append_assoc]
    exact commentBody?_append inside rest
  have hlength : ('*' :: body ++ ['*', '/']).length = body.length + 3 := by simp
  have hnext : next '/' ('*' :: body ++ ['*', '/'] ++ rest) =
      .ok (first ('*' :: body ++ ['*', '/']).length '/' _ none) := by
    rw [hlength]
    show slash ('*' :: (body ++ ['*', '/'] ++ rest)) = _
    simp only [slash, hbody]
    rfl
  exact takes_first hnext

theorem takes_symbol {s : Symbol} {rest : List Char}
    (alone : s = .slash → ∀ c ∈ rest.head?, c ≠ '/' ∧ c ≠ '*') :
    Takes ([s.char] ++ rest) [s.char] (some (.symbol s)) rest := by
  apply takes_first
  by_cases hs : s = .slash
  · subst hs
    show slash rest = .ok (first 0 '/' rest (some (.symbol .slash)))
    unfold slash
    split
    · exact absurd rfl (alone rfl '/' rfl).1
    · exact absurd rfl (alone rfl '*' rfl).2
    · rfl
  · cases s
    case slash => exact absurd rfl hs
    all_goals rfl

theorem takes_string {body : List Char}
    (inside : ∀ c ∈ body, c.toNat < 128 ∧ c ≠ '"' ∧ c ≠ '\n') (rest : List Char) :
    Takes ('"' :: body ++ ['"'] ++ rest) ('"' :: body ++ ['"'])
      (some (.string (String.ofList body))) rest := by
  have hquotable : ∀ c ∈ body, isQuotable c := by
    intro c hc
    simp [isQuotable, (inside c hc).2.1, (inside c hc).2.2]
  have hends : ∀ c ∈ ('"' :: rest).head?, isQuotable c = false := by
    rintro c ⟨⟩
    rfl
  have hascii : body.find? (! isAscii ·) = none := by
    rw [List.find?_eq_none]
    intro c hc
    simp [isAscii, (inside c hc).1]
  have hbody : (body ++ ['"'] ++ rest).takeWhile isQuotable = body := by
    rw [List.append_assoc]
    exact takeWhile_append_rest hquotable hends
  have hdrop : (body ++ ['"'] ++ rest).drop body.length = '"' :: rest := by
    rw [List.append_assoc]
    exact List.drop_left
  have hnext : next '"' (body ++ ['"'] ++ rest) =
      .ok (first (body ++ ['"']).length '"' _ (some (.string (String.ofList body)))) := by
    show quoted (body ++ ['"'] ++ rest) = _
    simp only [quoted, hbody, hdrop, hascii, List.length_append, List.length_singleton]
  exact takes_first hnext

theorem takes_keyword (k : Keyword) {rest : List Char}
    (ends : ∀ c ∈ rest.head?, isWordPart c = false) :
    Takes (k.text.toList ++ rest) k.text.toList (some (.keyword k)) rest := by
  obtain ⟨first, more, htext, starts, inside⟩ := k.exists_word
  rw [List.all_eq_true] at inside
  have htoken : wordToken (first :: more) = .keyword k := by
    simp only [wordToken, ← htext, String.ofList_toList, Keyword.ofText?_text]
  rw [htext, ← htoken]
  exact takes_run (fun word => some (wordToken word)) (next_word starts _) inside ends

theorem takes_identifier {first : Char} {more rest : List Char} (starts : isWordStart first)
    (inside : ∀ c ∈ more, isWordPart c) (ends : ∀ c ∈ rest.head?, isWordPart c = false)
    (free : ∀ k : Keyword, k.text.toList ≠ first :: more) :
    Takes (first :: more ++ rest) (first :: more)
      (some (.identifier (String.ofList (first :: more)))) rest := by
  have hfree : Keyword.ofText? (String.ofList (first :: more)) = none := by
    rw [Keyword.ofText?_eq_none_iff]
    intro k heq
    exact free k (by rw [heq, String.toList_ofList])
  have htoken : wordToken (first :: more) = .identifier (String.ofList (first :: more)) := by
    simp only [wordToken, hfree]
  rw [← htoken]
  exact takes_run (fun word => some (wordToken word)) (next_word starts _) inside ends

theorem takes_integer {digits rest : List Char} (nonempty : digits ≠ [])
    (inside : ∀ c ∈ digits, c.isDigit) (ends : ∀ c ∈ rest.head?, c.isDigit = false)
    (bounded : decimal digits ≤ 32767) :
    Takes (digits ++ rest) digits (some (.integer (UInt32.ofNat (decimal digits)))) rest := by
  cases digits with
  | nil => exact absurd rfl nonempty
  | cons c more =>
    rw [List.forall_mem_cons] at inside
    rw [← digitsValue_eq_decimal] at bounded ⊢
    have hmore := takeWhile_append_rest inside.2 ends
    refine takes_run (fun digits => some (.integer (UInt32.ofNat (digitsValue digits)))) ?_
      inside.2 ends
    rw [next_digit inside.1]
    dsimp only [number]
    rw [hmore]
    exact if_pos bounded

end Lexeme

end Jack
