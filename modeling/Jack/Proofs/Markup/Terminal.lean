import Jack.Proofs.Class.Markup
import Jack.Proofs.Class.WellFormed

/-! Terminal elements as a reader of markup finds them: behind each angle bracket may stand the tag
of a kind of token, and up to the next angle bracket what it holds. The markup of a class and that
of the tokens it was read from show a reader the same terminal elements. -/

namespace Jack

namespace Element

/-- A terminal element as it stands in a text: its tag and all that is between its two tags. -/
structure Terminal where
  tag : String
  content : String
deriving DecidableEq, Repr

/-- A token is held with a space on either side. -/
def Terminal.ofToken (t : Token) : Terminal := ⟨tokenTag t, " " ++ escape (tokenText t) ++ " "⟩

/-- Nothing of a token is lost in its terminal element. -/
theorem Terminal.ofToken_injective : Function.Injective ofToken := by
  intro t t' h
  obtain ⟨htag, hcontent⟩ := Terminal.mk.inj h
  rw [String.append_left_inj, String.append_right_inj] at hcontent
  exact token_eq_of_text htag (escape_injective hcontent)

def tokenTags : List String :=
  ["keyword", "symbol", "integerConstant", "stringConstant", "identifier"]

/-- The terminal element, if it is one, that begins with an angle bracket in front of a text. -/
def terminal? (behind : List Char) : Option Terminal :=
  let tag := String.ofList (behind.takeWhile (· != '>'))
  let inside := (behind.dropWhile (· != '>')).tail.takeWhile (· != '<')
  if tag ∈ tokenTags then some ⟨tag, String.ofList inside⟩ else none

def listTerminals : List Char → List Terminal
  | [] => []
  | c :: rest => (if c = '<' then (terminal? rest).toList else []) ++ listTerminals rest

/-- The terminal elements of a text, in the order in which they stand there. -/
def terminals (text : String) : List Terminal := listTerminals text.toList

theorem listTerminals_append {front : List Char} (h : '<' ∉ front) (rest : List Char) :
    listTerminals (front ++ rest) = listTerminals rest := by
  induction front with
  | nil => rfl
  | cons c front ih =>
    rw [List.mem_cons, not_or] at h
    rw [List.cons_append, listTerminals, if_neg (Ne.symm h.1), List.nil_append, ih h.2]

theorem bne_of_not_mem {bracket : Char} {tag : List Char} (h : bracket ∉ tag) :
    ∀ c ∈ tag, (c != bracket) = true := by
  intro c hc
  rw [bne_iff_ne]
  rintro rfl
  exact h hc

theorem takeWhile_tag {tag : List Char} {bracket : Char} (h : bracket ∉ tag) (rest : List Char) :
    (tag ++ bracket :: rest).takeWhile (· != bracket) = tag :=
  takeWhile_append_rest (bne_of_not_mem h) (by simp)

theorem dropWhile_tag {tag : List Char} {bracket : Char} (h : bracket ∉ tag) (rest : List Char) :
    (tag ++ bracket :: rest).dropWhile (· != bracket) = bracket :: rest :=
  dropWhile_append_rest (bne_of_not_mem h) (by simp)

theorem terminal?_of_tag {tag : String} (h : '>' ∉ tag.toList) (rest : List Char) :
    terminal? (tag.toList ++ '>' :: rest) =
      if tag ∈ tokenTags then some ⟨tag, String.ofList (rest.takeWhile (· != '<'))⟩ else none := by
  rw [terminal?, takeWhile_tag h, dropWhile_tag h, String.ofList_toList, List.tail_cons]

/-- What stands in brackets and is not the tag of a token. -/
structure IsOtherTag (tag : String) : Prop where
  closed : '>' ∉ tag.toList
  plain : '<' ∉ tag.toList
  other : tag ∉ tokenTags

theorem listTerminals_tag {tag : String} (h : IsOtherTag tag) (rest : List Char) :
    listTerminals ('<' :: (tag.toList ++ '>' :: rest)) = listTerminals rest := by
  have hplain : '<' ∉ tag.toList ++ ['>'] := by simp [h.plain]
  rw [listTerminals, if_pos rfl, terminal?_of_tag h.closed, if_neg h.other]
  have hbehind := listTerminals_append hplain rest
  rwa [List.append_assoc] at hbehind

theorem tokenTag_mem (t : Token) : tokenTag t ∈ tokenTags := by
  cases t <;> simp [tokenTag, tokenTags]

theorem not_mem_tokenTag_open (t : Token) : '<' ∉ (tokenTag t).toList := by
  cases t <;> simp [tokenTag]

theorem isOtherTag_closing {tag : String} (hclosed : '>' ∉ tag.toList)
    (hplain : '<' ∉ tag.toList) : IsOtherTag ("/" ++ tag) := by
  refine ⟨by simp [hclosed], by simp [hplain], fun h => ?_⟩
  have hslash : ∀ other ∈ tokenTags, other.toList.head? ≠ some '/' := by decide
  exact hslash _ h (by rw [String.toList_append]; rfl)

theorem isOtherTag_construct (c : Construct) : IsOtherTag c.name := by
  cases c <;> exact ⟨by decide, by decide, by decide⟩

theorem not_mem_indentation (depth : Nat) : '<' ∉ (indentation depth).toList := by
  rw [indentation, String.toList_ofList]
  intro h
  cases List.eq_of_mem_replicate h

theorem listTerminals_closing {tag : String} (hclosed : '>' ∉ tag.toList)
    (hplain : '<' ∉ tag.toList) (depth : Nat) (rest : List Char) :
    listTerminals (closing depth tag ++ rest) = listTerminals rest := by
  have htag := listTerminals_tag (isOtherTag_closing hclosed hplain) ('\n' :: rest)
  rw [closing, List.append_assoc, listTerminals_append (not_mem_indentation depth)]
  simpa [listTerminals] using htag

theorem listTerminals_terminal (depth : Nat) (t : Token) (rest : List Char) :
    listTerminals (written (lines depth (.terminal t)) ++ rest) =
      .ofToken t :: listTerminals rest := by
  let content := ' ' :: ((escape (tokenText t)).toList ++ [' '])
  have hcontent : '<' ∉ content := by simp [content, not_mem_escape]
  have hopening : '<' ∉ (tokenTag t).toList ++ '>' :: content := by
    rw [List.mem_append, List.mem_cons, not_or, not_or]
    exact ⟨not_mem_tokenTag_open t, by decide, hcontent⟩
  -- the closing tag stands behind the content as it does, without indentation, on a line of its own
  have hline : written (lines depth (.terminal t)) ++ rest = (indentation depth).toList ++
      '<' :: ((tokenTag t).toList ++ '>' :: (content ++ (closing 0 (tokenTag t) ++ rest))) := by
    rw [written_terminal]
    simp [closing, indentation, content]
  have hread : terminal? ((tokenTag t).toList ++ '>' ::
      (content ++ (closing 0 (tokenTag t) ++ rest))) = some (.ofToken t) := by
    have hclosing : closing 0 (tokenTag t) ++ rest =
        '<' :: '/' :: ((tokenTag t).toList ++ '>' :: '\n' :: rest) := by
      simp [closing, indentation]
    have htext : String.ofList content = " " ++ escape (tokenText t) ++ " " := by
      rw [← String.toList_inj, String.toList_ofList, String.toList_append, String.toList_append]
      rfl
    rw [terminal?_of_tag (not_mem_tokenTag t), if_pos (tokenTag_mem t), hclosing,
      takeWhile_tag hcontent, htext]
    rfl
  have hbehind := listTerminals_append hopening (closing 0 (tokenTag t) ++ rest)
  rw [List.append_assoc, List.cons_append] at hbehind
  rw [hline, listTerminals_append (not_mem_indentation depth), listTerminals, if_pos rfl, hread,
    hbehind, listTerminals_closing (not_mem_tokenTag t) (not_mem_tokenTag_open t)]
  rfl

theorem listTerminals_node {tag : String} (h : IsOtherTag tag) (depth : Nat)
    (children : List Element) (rest : List Char) :
    listTerminals (written (lines depth (.node tag children)) ++ rest) =
      listTerminals (written (listLines (depth + 1) children) ++ (closing depth tag ++ rest)) := by
  rw [written_node, listTerminals_append (not_mem_indentation depth),
    listTerminals_tag h, listTerminals]
  rfl

/-- The terminal elements of what is written are those of the tokens that it spells. -/
theorem Renders.listTerminals {es : List Element} {ts : List Token} (h : Renders es ts)
    (depth : Nat) (rest : List Char) :
    listTerminals (written (listLines depth es) ++ rest) =
      ts.map .ofToken ++ Element.listTerminals rest := by
  induction h generalizing depth rest with
  | nil => rfl
  | terminal t _ ih =>
    rw [written_listLines_cons, listTerminals_terminal, ih]
    rfl
  | construct c inside _ ihInside ihOthers =>
    have htag := isOtherTag_construct c
    rw [written_listLines_cons, listTerminals_node htag, ihInside,
      listTerminals_closing htag.closed htag.plain, ihOthers, List.map_append, List.append_assoc]

theorem terminals_text {tag : String} (htag : IsOtherTag tag) {es : List Element}
    {ts : List Token} (h : Renders es ts) :
    terminals (text (.node tag es)) = ts.map .ofToken := by
  have htext : (text (.node tag es)).toList =
      '<' :: (tag.toList ++ '>' :: '\n' :: (written (listLines 1 es) ++
        '<' :: (("/" ++ tag).toList ++ ['>']))) := by
    have hwritten := written_node 0 tag es []
    rw [List.append_nil, written_of_text] at hwritten
    have hline : (text (.node tag es)).toList ++ ['\n'] = '<' :: (tag.toList ++ '>' :: '\n' ::
        (written (listLines 1 es) ++ '<' :: (("/" ++ tag).toList ++ ['>']))) ++ ['\n'] := by
      rw [hwritten]
      simp [closing, indentation]
    exact List.append_cancel_right hline
  have hend := listTerminals_tag (isOtherTag_closing htag.closed htag.plain) []
  rw [terminals, htext, listTerminals_tag htag, listTerminals, if_neg (by decide),
    List.nil_append, h.listTerminals, hend, Element.listTerminals, List.append_nil]

end Element

open Element

theorem Class.terminals_markup (c : Class) : terminals c.markup.text = c.tokens.map .ofToken := by
  obtain ⟨inner, hinside⟩ := c.renders_markup.exists_children
  obtain rfl : inner = c.tokens := (hinside.element .class).unique c.renders_markup
  exact terminals_text (isOtherTag_construct .class) hinside

namespace Source

theorem terminals_tokensMarkup (ts : List Located) :
    terminals (tokensMarkup ts).text = (ts.map (·.token)).map .ofToken :=
  terminals_text ⟨by decide, by decide, by decide⟩ (Renders.map_terminal _)

/-- The markup of a class and that of the tokens of its text show the same terminal elements, one
for each token of the text and in the order of the text, and other tokens are not shown so. -/
theorem markups_show_same_terminals {source : String} {c : Class} (h : parse source = .ok c) :
    ∃ ts, tokens source = .ok ts ∧
      terminals c.markup.text = terminals (tokensMarkup ts).text ∧
      terminals (tokensMarkup ts).text = ts.map (fun t => .ofToken t.token) ∧
      ∀ us : List Located, terminals (tokensMarkup us).text = terminals c.markup.text →
        us.map (·.token) = ts.map (·.token) := by
  obtain ⟨ts, hscan, -, htokens⟩ := parse_eq_ok_iff.mp h
  have hscanned : tokens source = .ok ts := by
    rw [tokens, hscan]
    rfl
  have hshown : terminals c.markup.text = (ts.map (·.token)).map .ofToken := by
    rw [c.terminals_markup, htokens]
  refine ⟨ts, hscanned, ?_, ?_, fun us hus => ?_⟩
  · rw [hshown, terminals_tokensMarkup]
  · rw [terminals_tokensMarkup, List.map_map]
    rfl
  · rw [terminals_tokensMarkup, hshown] at hus
    exact Terminal.ofToken_injective.list_map hus

end Source

/-- An operator that is escaped and a string that looks like a terminal element. -/
def disguised : Class where
  name := "A"
  varDecs := []
  subroutines := [{
    kind := .function
    returnType := some .int
    name := "f"
    parameters := [⟨.int, "n"⟩]
    body := {
      locals := []
      statements := [.return (some
        (.binary (.term (.variable "n")) .less (.string "<symbol> ; </symbol>")))] } }]

theorem Source.markups_show_same_terminals_disguised :
    parse disguised.text = .ok disguised ∧
      ∃ ts, tokens disguised.text = .ok ts ∧
        terminals disguised.markup.text = terminals (tokensMarkup ts).text ∧
        terminals (tokensMarkup ts).text = ts.map (fun t => .ofToken t.token) ∧
        ∀ us : List Located, terminals (tokensMarkup us).text = terminals disguised.markup.text →
          us.map (·.token) = ts.map (·.token) := by
  have hparse : parse disguised.text = .ok disguised := parse_text (by decide)
  exact ⟨hparse, markups_show_same_terminals hparse⟩

end Jack
