import Jack.Proofs.Token.Piece

/-! A text has tokens exactly if it can be cut into pieces with no character left over. Only a run
of blanks can be cut in more than one way, and it has no token, so the tokens and their lines do
not depend on the cut. -/

namespace Jack

/-- The text that stands behind `before` is cut into pieces, with these tokens on their lines. -/
inductive Cut : List Char → List Char → List Located → Prop
  | nil (before : List Char) : Cut before [] []
  | cons {before taken rest : List Char} {token : Option Token} {others : List Located}
      (piece : Piece rest taken token) (tail : Cut (before ++ taken) rest others) :
      Cut before (taken ++ rest)
        ((token.map fun t => ⟨t, 1 + before.count '\n'⟩).toList ++ others)

namespace Located

theorem scan_nil (line : Nat) : scan line [] = .ok [] := by rw [scan]

/-- What one turn of the scanner does. -/
theorem scan_cons {line : Nat} {c : Char} {more : List Char} {lexeme : Lexeme (c :: more)}
    (h : Lexeme.next c more = .ok lexeme) :
    scan line (c :: more) = (scan (line + lexeme.taken.count '\n') lexeme.rest).map
      ((lexeme.token.map fun t => ⟨t, line⟩).toList ++ ·) := by
  rw [scan, h]
  cases hrest : scan (line + lexeme.taken.count '\n') lexeme.rest <;> simp only [hrest] <;> rfl

theorem scan_of_takes {line : Nat} {text taken rest : List Char} {token : Option Token}
    (takes : Lexeme.Takes text taken token rest) :
    scan line text = (scan (line + taken.count '\n') rest).map
      ((token.map fun t => ⟨t, line⟩).toList ++ ·) := by
  obtain ⟨c, more, rfl, lexeme, hnext, rfl, rfl, rfl⟩ := takes
  exact scan_cons hnext

theorem map_nil_append (r : Except LexicalError (List Located)) : r.map ([] ++ ·) = r := by
  cases r <;> rfl

/-- Blanks at the front of a text only move its first line. -/
theorem scan_dropWhile_blank (line : Nat) (text : List Char) :
    scan line text =
      scan (line + (text.takeWhile Text.isBlank).count '\n') (text.dropWhile Text.isBlank) := by
  cases text with
  | nil => rfl
  | cons c more =>
    by_cases hc : Text.isBlank c
    · rw [scan_cons (Lexeme.next_blank hc more), List.takeWhile_cons_of_pos hc,
        List.dropWhile_cons_of_pos hc]
      exact map_nil_append _
    · rw [List.takeWhile_cons_of_neg hc, List.dropWhile_cons_of_neg hc]
      rfl

theorem scan_blank (line : Nat) {run : List Char} (inside : ∀ c ∈ run, Text.isBlank c)
    (rest : List Char) : scan line (run ++ rest) = scan (line + run.count '\n') rest := by
  -- the scanner takes all blanks at once, also those behind the run
  rw [scan_dropWhile_blank line, scan_dropWhile_blank _ rest,
    List.takeWhile_append_of_pos inside, List.dropWhile_append_of_pos inside, List.count_append,
    Nat.add_assoc]

theorem scan_piece (line : Nat) {rest taken : List Char} {token : Option Token}
    (piece : Piece rest taken token) :
    scan line (taken ++ rest) = (scan (line + taken.count '\n') rest).map
      ((token.map fun t => ⟨t, line⟩).toList ++ ·) := by
  cases piece with
  | blank nonempty inside =>
    rw [scan_blank line inside]
    exact (map_nil_append _).symm
  | lineComment inside ends => exact scan_of_takes (Lexeme.takes_lineComment inside ends)
  | blockComment inside => exact scan_of_takes (Lexeme.takes_blockComment inside rest)
  | symbol alone => exact scan_of_takes (Lexeme.takes_symbol alone)
  | string inside => exact scan_of_takes (Lexeme.takes_string inside rest)
  | keyword ends => exact scan_of_takes (Lexeme.takes_keyword _ ends)
  | identifier starts inside ends free =>
    exact scan_of_takes (Lexeme.takes_identifier starts inside ends free)
  | integer nonempty inside ends bounded =>
    exact scan_of_takes (Lexeme.takes_integer nonempty inside ends bounded)

theorem cut_of_scan (before text : List Char) {ts : List Located}
    (h : scan (1 + before.count '\n') text = .ok ts) : Cut before text ts := by
  cases text with
  | nil =>
    rw [scan_nil] at h
    cases h
    exact .nil before
  | cons c more =>
    cases hnext : Lexeme.next c more with
    | error fault =>
      rw [scan, hnext] at h
      cases h
    | ok lexeme =>
      -- the recursion is on what the scanner leaves
      have hshorter := lexeme.rest_length_lt
      rw [scan_cons hnext] at h
      cases hrest : scan (1 + before.count '\n' + lexeme.taken.count '\n') lexeme.rest with
      | error e =>
        rw [hrest] at h
        cases h
      | ok others =>
        rw [hrest] at h
        cases h
        rw [Nat.add_assoc, ← List.count_append] at hrest
        have tail := cut_of_scan (before ++ lexeme.taken) lexeme.rest hrest
        have whole := Cut.cons (Lexeme.piece_of_next hnext) tail
        rwa [lexeme.taken_append_rest] at whole
termination_by text.length

theorem scan_of_cut {before text : List Char} {ts : List Located} (cut : Cut before text ts) :
    scan (1 + before.count '\n') text = .ok ts := by
  induction cut with
  | nil before => exact scan_nil _
  | @cons before taken rest token others piece tail ih =>
    rw [List.count_append, ← Nat.add_assoc] at ih
    rw [scan_piece _ piece, ih]
    rfl

theorem ofText_eq_ok_iff_cut (text : String) (ts : List Located) :
    ofText text = .ok ts ↔ Cut [] text.toList ts :=
  ⟨cut_of_scan [] text.toList, scan_of_cut⟩

end Located

end Jack
