import Jack.Proofs.Token.Cut

/-! Tokens written out as source text. A list of tokens whose names, numbers and strings can be
written at all is read back from its text, in which one space stands between one token and the
next, and the tokens of any text are of this sort. -/

namespace Jack

/-- A word that is an identifier: `[_a-zA-Z][_a-zA-Z0-9]*`, keywords excepted. -/
def isName (name : String) : Bool :=
  match name.toList with
  | [] => false
  | first :: more =>
    isWordStart first && more.all isWordPart && Keyword.all.all (·.text != name)

/-- A text that can stand between two quotes. -/
def isQuotation (text : String) : Bool :=
  text.toList.all fun c => decide (c.toNat < 128) && c != '"' && c != '\n'

namespace Token

/-- There is a way to write the token. -/
def wellFormed : Token → Bool
  | .keyword _ | .symbol _ => true
  | .integer value => decide (value.toNat ≤ 32767)
  | .string text => isQuotation text
  | .identifier name => isName name

def spelling : Token → String
  | .keyword word => word.text
  | .symbol s => s.text
  | .integer value => toString value
  | .string text => s!"\"{text}\""
  | .identifier name => name

/-- Tokens as source text, with one space between them. -/
def listText (ts : List Token) : String := " ".intercalate (ts.map spelling)

end Token

theorem exists_of_isName {name : String} (h : isName name) :
    ∃ first more, name.toList = first :: more ∧ isWordStart first ∧
      (∀ c ∈ more, isWordPart c) ∧ ∀ k : Keyword, k.text ≠ name := by
  unfold isName at h
  split at h
  · cases h
  · next first more hname =>
    simp only [Bool.and_eq_true, List.all_eq_true, bne_iff_ne] at h
    obtain ⟨⟨starts, inside⟩, free⟩ := h
    exact ⟨first, more, hname, starts, inside, fun k => free k k.mem_all⟩

theorem isName_ofList {first : Char} {more : List Char} (starts : isWordStart first)
    (inside : ∀ c ∈ more, isWordPart c) (free : ∀ k : Keyword, k.text.toList ≠ first :: more) :
    isName (String.ofList (first :: more)) := by
  have hfree : ∀ k ∈ Keyword.all, k.text ≠ String.ofList (first :: more) := by
    intro k _ heq
    exact free k (by rw [heq, String.toList_ofList])
  simp only [isName, String.toList_ofList, Bool.and_eq_true, List.all_eq_true, bne_iff_ne]
  exact ⟨⟨starts, inside⟩, hfree⟩

/-- `this` is a keyword, so no identifier of a text is spelled so. -/
theorem isName_this : isName "this" = false := by decide

theorem isQuotation_iff {text : String} :
    isQuotation text ↔ ∀ c ∈ text.toList, c.toNat < 128 ∧ c ≠ '"' ∧ c ≠ '\n' := by
  simp [isQuotation, and_assoc]

/-- The digits of a number have it for their value. -/
theorem decimal_toDigits (n : Nat) : decimal (Nat.toDigits 10 n) = n := by
  rw [← digitsValue_eq_decimal, digitsValue, ← Nat.ofDigitChars_eq_foldl]
  exact Nat.ofDigitChars_ten_toDigits

namespace Token

variable {rest : List Char}

theorem toList_spelling_integer (value : UInt32) :
    (spelling (.integer value)).toList = Nat.toDigits 10 value.toNat := Nat.toList_repr

/-- What a well-formed token is spelled with is a piece for it in front of a space or at the end. -/
theorem piece_spelling {t : Token} (h : t.wellFormed) (ends : ∀ c ∈ rest.head?, c = ' ') :
    Piece rest t.spelling.toList (some t) := by
  cases t with
  | keyword word =>
    refine .keyword fun c hc => ?_
    rw [ends c hc]
    rfl
  | symbol s =>
    rw [spelling, Symbol.text, String.toList_singleton]
    refine .symbol fun _ c hc => ?_
    rw [ends c hc]
    decide
  | integer value =>
    have hbounded : value.toNat ≤ 32767 := of_decide_eq_true h
    have hvalue : UInt32.ofNat (decimal (Nat.toDigits 10 value.toNat)) = value := by
      rw [decimal_toDigits, UInt32.ofNat_toNat]
    rw [toList_spelling_integer]
    have hpiece : Piece rest (Nat.toDigits 10 value.toNat)
        (some (.integer (UInt32.ofNat (decimal (Nat.toDigits 10 value.toNat))))) := by
      refine .integer Nat.toDigits_ne_nil ?_ ?_ ?_
      · exact fun c hc => Nat.isDigit_of_mem_toDigits (by decide) (by decide) hc
      · intro c hc
        rw [ends c hc]
        rfl
      · rwa [decimal_toDigits]
    rwa [hvalue] at hpiece
  | string text =>
    have hpiece : Piece rest ('"' :: text.toList ++ ['"'])
        (some (.string (String.ofList text.toList))) := .string (isQuotation_iff.mp h)
    rw [String.ofList_toList] at hpiece
    have htext : (spelling (.string text)).toList = '"' :: text.toList ++ ['"'] := by
      show ("\"" ++ text ++ "\"").toList = '"' :: text.toList ++ ['"']
      rw [String.toList_append, String.toList_append]
      rfl
    rwa [htext]
  | identifier name =>
    obtain ⟨first, more, hname, starts, inside, free⟩ := exists_of_isName h
    have hfree : ∀ k : Keyword, k.text.toList ≠ first :: more := by
      intro k heq
      rw [← hname] at heq
      exact free k (String.toList_inj.mp heq)
    have hpiece : Piece rest (first :: more)
        (some (.identifier (String.ofList (first :: more)))) := by
      refine .identifier starts inside (fun c hc => ?_) hfree
      rw [ends c hc]
      rfl
    rwa [← hname, String.ofList_toList] at hpiece

theorem listText_cons_cons (first second : Token) (others : List Token) :
    (listText (first :: second :: others)).toList =
      first.spelling.toList ++ ([' '] ++ (listText (second :: others)).toList) := by
  simp [listText, String.intercalate_cons_cons]

/-- Well-formed tokens are read back from their text. -/
theorem exists_cut_listText {ts : List Token} (h : ∀ t ∈ ts, t.wellFormed) (before : List Char) :
    ∃ located, Cut before (listText ts).toList located ∧ located.map (·.token) = ts := by
  induction ts generalizing before with
  | nil => exact ⟨[], .nil before, rfl⟩
  | cons first others ih =>
    rw [List.forall_mem_cons] at h
    cases others with
    | nil =>
      have hpiece : Piece [] first.spelling.toList (some first) := piece_spelling h.1 (by simp)
      have htext : (listText [first]).toList = first.spelling.toList ++ [] := by
        simp [listText]
      rw [htext]
      exact ⟨_, .cons hpiece (.nil _), rfl⟩
    | cons second others =>
      -- the space is a piece of its own, and it has no token
      have hspace : ∀ c ∈ [' '], Text.isBlank c := fun c hc => by
        rw [List.mem_singleton.mp hc]
        rfl
      have hblank : Piece (listText (second :: others)).toList [' '] none :=
        .blank (List.cons_ne_nil _ _) hspace
      obtain ⟨located, hcut, htokens⟩ := ih h.2 (before ++ first.spelling.toList ++ [' '])
      have hpiece : Piece ([' '] ++ (listText (second :: others)).toList) first.spelling.toList
          (some first) := piece_spelling h.1 (by simp)
      rw [listText_cons_cons]
      refine ⟨_, .cons hpiece (.cons hblank hcut), ?_⟩
      rw [← htokens]
      rfl

theorem wellFormed_of_piece {taken : List Char} {t : Token} (piece : Piece rest taken (some t)) :
    t.wellFormed := by
  cases piece with
  | symbol => rfl
  | keyword => rfl
  | string inside =>
    show isQuotation _ = true
    rwa [isQuotation_iff, String.toList_ofList]
  | identifier starts inside _ free => exact isName_ofList starts inside free
  | integer _ _ _ bounded =>
    refine decide_eq_true ?_
    rw [UInt32.toNat_ofNat']
    exact (Nat.mod_le _ _).trans bounded

theorem wellFormed_of_cut {before text : List Char} {ts : List Located} (cut : Cut before text ts) :
    ∀ t ∈ ts.map (·.token), t.wellFormed := by
  induction cut with
  | nil => exact fun t ht => absurd ht List.not_mem_nil
  | @cons _ _ _ token _ piece _ ih =>
    rw [List.map_append, List.forall_mem_append]
    refine ⟨?_, ih⟩
    cases token with
    | none => exact fun t ht => absurd ht List.not_mem_nil
    | some found =>
      intro t ht
      rw [List.mem_singleton.mp ht]
      exact wellFormed_of_piece piece

end Token

end Jack
