import Mathlib.Data.List.Basic
import Jack.Expression.Markup
import Jack.Proofs.Vm.Label

/-! Markup as it is written. The text of an element gives the element back: a tag ends at the first
angle bracket, a space behind it stands for a token and a newline for an element with children, and
no text of a token, once its three special characters are escaped, has an angle bracket in it. -/

namespace Jack.Element

/-- Lines as they are written, each with the newline that ends it. -/
def written (ls : List String) : List Char := ls.flatMap fun line => line.toList ++ ['\n']

@[simp] theorem written_nil : written [] = [] := rfl

@[simp] theorem written_cons (line : String) (ls : List String) :
    written (line :: ls) = line.toList ++ '\n' :: written ls := by
  simp [written]

@[simp] theorem written_append (ls ms : List String) :
    written (ls ++ ms) = written ls ++ written ms := List.flatMap_append

theorem written_eq_intercalate (line : String) (ls : List String) :
    written (line :: ls) = ("\n".intercalate (line :: ls)).toList ++ ['\n'] := by
  induction ls generalizing line with
  | nil => simp
  | cons second others ih =>
    rw [written_cons, ih, String.intercalate_cons_cons]
    simp

/-! The text of a token. -/

theorem escapeChar_append_inj {c c' : Char} {rest rest' : List Char}
    (h : escapeChar c ++ rest = escapeChar c' ++ rest') : c = c' ∧ rest = rest' := by
  unfold escapeChar at h
  -- only a name begins with `&`, and no two names go on with the same letters
  split at h <;> split at h <;> simp at h ⊢ <;> grind

theorem flatMap_escapeChar_injective :
    Function.Injective fun text : List Char => text.flatMap escapeChar := by
  have hne (c : Char) : escapeChar c ≠ [] := by
    unfold escapeChar
    split <;> simp
  intro text
  induction text with
  | nil =>
    rintro (_ | ⟨c, rest⟩) h
    · rfl
    · have hnil : [] = escapeChar c ++ rest.flatMap escapeChar := h
      exact absurd (List.append_eq_nil_iff.mp hnil.symm).1 (hne c)
  | cons c rest ih =>
    rintro (_ | ⟨c', rest'⟩) h
    · have hnil : escapeChar c ++ rest.flatMap escapeChar = [] := h
      exact absurd (List.append_eq_nil_iff.mp hnil).1 (hne c)
    · have hcons : escapeChar c ++ rest.flatMap escapeChar =
          escapeChar c' ++ rest'.flatMap escapeChar := h
      obtain ⟨rfl, hrest⟩ := escapeChar_append_inj hcons
      rw [ih hrest]

theorem escape_injective : Function.Injective escape := fun _ _ h =>
  String.toList_injective (flatMap_escapeChar_injective (String.ofList_injective h))

theorem not_mem_escape (text : String) : '<' ∉ (escape text).toList := by
  rw [escape, String.toList_ofList]
  intro h
  obtain ⟨c, -, hc⟩ := List.mem_flatMap.mp h
  unfold escapeChar at hc
  split at hc <;> simp at hc
  exact absurd hc.symm ‹_›

theorem not_mem_tokenTag (t : Token) : '>' ∉ (tokenTag t).toList := by
  cases t <;> simp [tokenTag]

/-- The tag and the text of a token tell it from every other one. -/
theorem token_eq_of_text {t t' : Token} (htag : tokenTag t = tokenTag t')
    (htext : tokenText t = tokenText t') : t = t' := by
  cases t <;> cases t' <;> simp [tokenTag] at htag
  case keyword.keyword word word' => rw [Keyword.text_injective htext]
  case symbol.symbol s s' =>
    have hchar : String.singleton s.char = String.singleton s'.char := htext
    rw [Symbol.char_injective (String.singleton_inj.mp hchar)]
  case integer.integer value value' => rw [toString_word_injective htext]
  case string.string text text' => exact congrArg Token.string htext
  case identifier.identifier name name' => exact congrArg Token.identifier htext

/-! What is written of an element, in front of what follows it. -/

/-- The line that closes an element. -/
def closing (depth : Nat) (tag : String) : List Char :=
  (indentation depth).toList ++ '<' :: '/' :: (tag.toList ++ ['>', '\n'])

theorem indentation_succ (depth : Nat) :
    (indentation (depth + 1)).toList = (indentation depth).toList ++ [' ', ' '] := by
  rw [indentation, indentation, String.toList_ofList, String.toList_ofList, Nat.mul_add,
    List.replicate_add]
  rfl

theorem written_terminal (depth : Nat) (t : Token) (rest : List Char) :
    written (lines depth (.terminal t)) ++ rest =
      (indentation depth).toList ++ '<' :: ((tokenTag t).toList ++ '>' :: ' ' ::
        ((escape (tokenText t)).toList ++ [' '] ++
          '<' :: '/' :: ((tokenTag t).toList ++ '>' :: '\n' :: rest))) := by
  simp only [lines, written_cons, written_nil, String.toList_append, List.append_assoc]
  rfl

theorem written_node (depth : Nat) (tag : String) (children : List Element) (rest : List Char) :
    written (lines depth (.node tag children)) ++ rest =
      (indentation depth).toList ++ '<' :: (tag.toList ++ '>' :: '\n' ::
        (written (listLines (depth + 1) children) ++ (closing depth tag ++ rest))) := by
  simp only [lines, written_cons, written_append, written_nil, closing, String.toList_append,
    List.append_assoc, List.cons_append]
  rfl

theorem written_listLines_cons (depth : Nat) (e : Element) (es : List Element)
    (rest : List Char) :
    written (listLines depth (e :: es)) ++ rest =
      written (e.lines depth) ++ (written (listLines depth es) ++ rest) := by
  rw [listLines, written_append, List.append_assoc]

/-- Up to an angle bracket that ends a tag, two texts are the same. -/
theorem tag_eq_of_append {bracket : Char} {tag tag' rest rest' : List Char} (h : bracket ∉ tag)
    (h' : bracket ∉ tag') (heq : tag ++ bracket :: rest = tag' ++ bracket :: rest') :
    tag = tag' ∧ rest = rest' := by
  -- neither tag is the longer one
  rcases List.append_eq_append_iff.mp heq with ⟨more, rfl, hmore⟩ | ⟨more, rfl, hmore⟩
  · cases more with
    | nil => simpa using hmore
    | cons c more =>
      obtain ⟨rfl, -⟩ := List.cons.inj hmore
      exact absurd (List.mem_append_right _ List.mem_cons_self) h'
  · cases more with
    | nil => simpa [eq_comm] using hmore
    | cons c more =>
      obtain ⟨rfl, -⟩ := List.cons.inj hmore
      exact absurd (List.mem_append_right _ List.mem_cons_self) h

theorem written_terminal_inj {depth : Nat} {t t' : Token} {rest rest' : List Char}
    (h : written (lines depth (.terminal t)) ++ rest =
      written (lines depth (.terminal t')) ++ rest') : t = t' ∧ rest = rest' := by
  rw [written_terminal, written_terminal, List.append_cancel_left_eq, List.cons.injEq] at h
  obtain ⟨htag, hbehind⟩ := tag_eq_of_append (not_mem_tokenTag t) (not_mem_tokenTag t') h.2
  have hfree (t : Token) : '<' ∉ (escape (tokenText t)).toList ++ [' '] := by
    simp [not_mem_escape]
  obtain ⟨htext, hclosing⟩ := tag_eq_of_append (hfree t) (hfree t') (List.cons.inj hbehind).2
  have hescaped : escape (tokenText t) = escape (tokenText t') :=
    String.toList_injective (List.append_cancel_right htext)
  obtain rfl : t = t' :=
    token_eq_of_text (String.toList_injective htag) (escape_injective hescaped)
  refine ⟨rfl, ?_⟩
  simpa using hclosing

theorem written_node_inj {depth : Nat} {tag tag' : String} {children children' : List Element}
    {rest rest' : List Char} (htag : '>' ∉ tag.toList) (htag' : '>' ∉ tag'.toList)
    (h : written (lines depth (.node tag children)) ++ rest =
      written (lines depth (.node tag' children')) ++ rest') :
    tag = tag' ∧ written (listLines (depth + 1) children) ++ (closing depth tag ++ rest) =
      written (listLines (depth + 1) children') ++ (closing depth tag ++ rest') := by
  rw [written_node, written_node, List.append_cancel_left_eq, List.cons.injEq] at h
  obtain ⟨hsame, hbehind⟩ := tag_eq_of_append htag htag' h.2
  obtain rfl : tag = tag' := String.toList_injective hsame
  exact ⟨rfl, (List.cons.inj hbehind).2⟩

theorem written_terminal_ne_node {depth : Nat} {t : Token} {tag : String}
    {children : List Element} {rest rest' : List Char} (htag : '>' ∉ tag.toList) :
    written (lines depth (.terminal t)) ++ rest ≠
      written (lines depth (.node tag children)) ++ rest' := by
  intro h
  rw [written_terminal, written_node, List.append_cancel_left_eq, List.cons.injEq] at h
  obtain ⟨-, hbehind⟩ := tag_eq_of_append (not_mem_tokenTag t) htag h.2
  cases (List.cons.inj hbehind).1

/-- The line that closes the element around them ends a list of elements, for it is less indented
than another element would be. -/
theorem closing_ne_written {depth : Nat} {tag : String} {e : Element} {rest rest' : List Char} :
    closing depth tag ++ rest ≠ written (lines (depth + 1) e) ++ rest' := by
  intro h
  obtain ⟨tail, htail⟩ : ∃ tail, written (lines (depth + 1) e) ++ rest' =
      (indentation (depth + 1)).toList ++ tail := by
    cases e with
    | terminal t => exact ⟨_, written_terminal _ t rest'⟩
    | node tag children => exact ⟨_, written_node _ tag children rest'⟩
  rw [htail, indentation_succ, closing, List.append_assoc, List.append_assoc,
    List.append_cancel_left_eq] at h
  cases (List.cons.inj h).1

/-! Elements that spell tokens. -/

/-- The elements are those of constructs, and the tokens stand in them in this order. -/
inductive Renders : List Element → List Token → Prop
  | nil : Renders [] []
  | terminal (t : Token) {es : List Element} {ts : List Token} (others : Renders es ts) :
    Renders (.terminal t :: es) (t :: ts)
  | construct (c : Construct) {children es : List Element} {ts us : List Token}
    (inside : Renders children ts) (others : Renders es us) :
    Renders (.node c.name children :: es) (ts ++ us)

theorem not_mem_constructName (c : Construct) : '>' ∉ c.name.toList := by
  cases c <;> decide

namespace Renders

variable {es es' : List Element} {ts us : List Token}

theorem append (h : Renders es ts) (h' : Renders es' us) : Renders (es ++ es') (ts ++ us) := by
  induction h with
  | nil => exact h'
  | terminal t _ ih => exact .terminal t ih
  | construct c inside _ _ ih =>
    rw [List.append_assoc]
    exact .construct c inside ih

/-- One construct, and no element behind it. -/
theorem element (c : Construct) (h : Renders es ts) : Renders [c.element es] ts := by
  have hfirst := Renders.construct c h .nil
  rwa [List.append_nil] at hfirst

theorem exists_children {tag : String} (h : Renders [.node tag es] ts) :
    ∃ inner, Renders es inner := by
  cases h with
  | construct c inside others => exact ⟨_, inside⟩

theorem map_terminal (ts : List Token) : Renders (ts.map .terminal) ts := by
  induction ts with
  | nil => exact .nil
  | cons t _ ih => exact .terminal t ih

theorem unique (h : Renders es ts) (h' : Renders es us) : ts = us := by
  induction h generalizing us with
  | nil =>
    cases h'
    rfl
  | terminal t _ ih =>
    cases h' with
    | terminal _ others => rw [ih others]
  | construct c inside others ihInside ihOthers =>
    generalize hes : node c.name _ :: _ = es at h'
    cases h' with
    | nil => cases hes
    | terminal => cases hes
    | construct c' inside' others' =>
      obtain ⟨hfirst, rfl⟩ := List.cons.inj hes
      obtain ⟨-, rfl⟩ := Element.node.inj hfirst
      rw [ihInside inside', ihOthers others']

/-- In front of the line that closes the element around them, elements can be told from what is
written of them. -/
theorem eq_of_written (h : Renders es ts) (h' : Renders es' us) {depth : Nat} {tag : String}
    {rest rest' : List Char}
    (heq : written (listLines (depth + 1) es) ++ (closing depth tag ++ rest) =
      written (listLines (depth + 1) es') ++ (closing depth tag ++ rest')) :
    es = es' ∧ rest = rest' := by
  induction h generalizing es' us depth tag rest rest' with
  | nil =>
    cases h' with
    | nil => exact ⟨rfl, by simpa [listLines] using heq⟩
    | terminal | construct =>
      rw [written_listLines_cons] at heq
      exact absurd heq closing_ne_written
  | terminal t others ih =>
    rw [written_listLines_cons] at heq
    cases h' with
    | nil => exact absurd heq.symm closing_ne_written
    | terminal t' others' =>
      rw [written_listLines_cons] at heq
      obtain ⟨rfl, hbehind⟩ := written_terminal_inj heq
      obtain ⟨rfl, rfl⟩ := ih others' hbehind
      exact ⟨rfl, rfl⟩
    | construct c' inside' others' =>
      rw [written_listLines_cons] at heq
      exact absurd heq (written_terminal_ne_node (not_mem_constructName c'))
  | construct c inside others ihInside ihOthers =>
    rw [written_listLines_cons] at heq
    cases h' with
    | nil => exact absurd heq.symm closing_ne_written
    | terminal t' others' =>
      rw [written_listLines_cons] at heq
      exact absurd heq.symm (written_terminal_ne_node (not_mem_constructName c))
    | construct c' inside' others' =>
      rw [written_listLines_cons] at heq
      obtain ⟨hname, hinside⟩ :=
        written_node_inj (not_mem_constructName c) (not_mem_constructName c') heq
      obtain ⟨rfl, hbehind⟩ := ihInside inside' hinside
      obtain ⟨rfl, rfl⟩ := ihOthers others' hbehind
      exact ⟨by rw [hname], rfl⟩

end Renders

theorem written_of_text {tag : String} {children : List Element} :
    written (lines 0 (.node tag children)) = (text (.node tag children)).toList ++ ['\n'] := by
  rw [text, lines, written_eq_intercalate]

theorem tag_eq_of_text {tag tag' : String} {es es' : List Element} (htag : '>' ∉ tag.toList)
    (htag' : '>' ∉ tag'.toList) (heq : text (.node tag es) = text (.node tag' es')) :
    tag = tag' := by
  have hwritten : written (lines 0 (.node tag es)) ++ [] =
      written (lines 0 (.node tag' es')) ++ [] := by
    rw [written_of_text, written_of_text, heq]
  exact (written_node_inj htag htag' hwritten).1

/-- Two elements with one tag and one text have the same children. -/
theorem children_eq_of_text {tag : String} {es es' : List Element} {ts us : List Token}
    (htag : '>' ∉ tag.toList) (h : Renders es ts) (h' : Renders es' us)
    (heq : text (.node tag es) = text (.node tag es')) : es = es' := by
  have hwritten : written (lines 0 (.node tag es)) ++ [] =
      written (lines 0 (.node tag es')) ++ [] := by
    rw [written_of_text, written_of_text, heq]
  obtain ⟨-, hchildren⟩ := written_node_inj htag htag hwritten
  exact (h.eq_of_written h' hchildren).1

end Jack.Element
