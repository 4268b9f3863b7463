import Mathlib.Data.List.Basic
import Std.Data.String.ToNat
import Jack.Vm.Instruction

/-! Code read back from its text. A line of code tells where each of its fields ends although names
are written as they are: the first word names the instruction, a number is the last word, and a
name is all words between, whatever spaces it has. Only a newline in a name breaks a line apart. -/

namespace Jack

/-! A text and its parts between separators. -/

def parts (separator : Char) (text : String) : List String :=
  (text.toList.splitOn separator).map String.ofList

theorem parts_ne_nil (separator : Char) (text : String) : parts separator text ≠ [] := by
  simp [parts]

theorem intercalate_parts (separator : Char) (text : String) :
    (String.singleton separator).intercalate (parts separator text) = text := by
  rw [← String.toList_inj, String.toList_intercalate, parts, List.map_map]
  simp [Function.comp_def]

theorem parts_append (separator : Char) (before after : String) :
    parts separator (before ++ String.singleton separator ++ after) =
      parts separator before ++ parts separator after := by
  have htext : (before ++ String.singleton separator ++ after).toList =
      before.toList ++ separator :: after.toList := by simp
  rw [parts, htext, List.splitOn_append_cons_self, List.map_append, parts, parts]

theorem parts_of_not_mem {separator : Char} {text : String} (h : separator ∉ text.toList) :
    parts separator text = [text] := by
  rw [parts, List.splitOn_eq_singleton h, List.map_singleton, String.ofList_toList]

theorem not_mem_of_mem_splitOn {separator : Char} {letters part : List Char}
    (h : part ∈ letters.splitOn separator) : separator ∉ part := by
  induction letters generalizing part with
  | nil =>
    rw [List.splitOn_nil, List.mem_singleton] at h
    exact h ▸ List.not_mem_nil
  | cons c rest ih =>
    obtain ⟨first, others, hrest⟩ :=
      List.exists_cons_of_ne_nil (List.splitOn_ne_nil separator rest)
    rw [List.splitOn_cons_eq_if_modifyHead, hrest] at h
    rw [hrest] at ih
    split at h
    · rcases List.mem_cons.mp h with rfl | h
      · exact List.not_mem_nil
      · exact ih h
    · next hc =>
      rcases List.mem_cons.mp h with rfl | h
      · rw [List.mem_cons, not_or]
        exact ⟨fun h => hc (beq_iff_eq.mpr h.symm), ih List.mem_cons_self⟩
      · exact ih (List.mem_cons_of_mem _ h)

theorem not_mem_of_mem_parts {separator : Char} {text part : String}
    (h : part ∈ parts separator text) : separator ∉ part.toList := by
  obtain ⟨letters, hletters, rfl⟩ := List.mem_map.mp h
  rw [String.toList_ofList]
  exact not_mem_of_mem_splitOn hletters

/-- The words of a line, which single spaces stand between. -/
def words (line : String) : List String := parts ' ' line

theorem words_ne_nil (line : String) : words line ≠ [] := parts_ne_nil ' ' line

theorem intercalate_words (line : String) : " ".intercalate (words line) = line :=
  intercalate_parts ' ' line

theorem words_append (before after : String) :
    words (before ++ " " ++ after) = words before ++ words after := parts_append ' ' before after

theorem words_intercalate {fields : List String} (h : fields ≠ []) :
    words (" ".intercalate fields) = fields.flatMap words := by
  induction fields with
  | nil => exact absurd rfl h
  | cons first others ih =>
    cases others with
    | nil => simp
    | cons second others =>
      rw [String.intercalate_cons_cons, words_append, ih (List.cons_ne_nil _ _)]
      rfl

theorem newline_mem_intercalate {fields : List String} :
    '\n' ∈ (" ".intercalate fields).toList ↔ ∃ field ∈ fields, '\n' ∈ field.toList := by
  induction fields with
  | nil => simp
  | cons first others ih =>
    cases others with
    | nil => simp
    | cons second others =>
      rw [String.intercalate_cons_cons, List.exists_mem_cons_iff, ← ih]
      simp

theorem words_of_not_mem {word : String} (h : ' ' ∉ word.toList) : words word = [word] :=
  parts_of_not_mem h

/-- The number that a text writes in decimal digits, without a zero in front. -/
def wordOfText? (digits : String) : Option UInt32 :=
  (digits.toNat?.map UInt32.ofNat).filter fun n => toString n = digits

theorem wordOfText?_eq_some_iff {digits : String} {n : UInt32} :
    wordOfText? digits = some n ↔ toString n = digits := by
  simp only [wordOfText?, Option.filter_eq_some_iff, decide_eq_true_eq]
  refine ⟨And.right, ?_⟩
  rintro rfl
  refine ⟨?_, rfl⟩
  show (Nat.repr n.toNat).toNat?.map UInt32.ofNat = some n
  rw [Nat.toNat?_repr, Option.map_some, UInt32.ofNat_toNat]

theorem toString_word_mem {n : UInt32} {c : Char} (h : c ∈ (toString n).toList) : c.isDigit := by
  have hdigits : (toString n).toList = Nat.toDigits 10 n.toNat := Nat.toList_repr
  rw [hdigits] at h
  exact Nat.isDigit_of_mem_toDigits (by decide) (by decide) h

theorem words_number (n : UInt32) : words (toString n) = [toString n] :=
  words_of_not_mem fun h => by simpa using toString_word_mem h

theorem Segment.words_text (s : Segment) : words s.text = [s.text] := by
  cases s <;> rfl

theorem Segment.ofText?_eq_some_iff {name : String} {s : Segment} :
    ofText? name = some s ↔ s.text = name := by
  refine ⟨fun h => ?_, ?_⟩
  · simpa using List.find?_some h
  · rintro rfl
    exact ofText?_text s

theorem Arithmetic.words_text (a : Arithmetic) : words a.text = [a.text] := by
  cases a <;> rfl

theorem Arithmetic.ofText?_eq_some_iff {name : String} {a : Arithmetic} :
    ofText? name = some a ↔ a.text = name := by
  refine ⟨fun h => ?_, ?_⟩
  · simpa using List.find?_some h
  · rintro rfl
    exact ofText?_text a

namespace Instruction

/-- An instruction with a segment and an index. -/
def indexed? (make : Segment → UInt32 → Instruction) : List String → Option Instruction
  | [segment, index] => do return make (← Segment.ofText? segment) (← wordOfText? index)
  | _ => none

/-- An instruction with a name and a number, which is the last word. -/
def counted? (make : String → UInt32 → Instruction) (operands : List String) :
    Option Instruction :=
  match operands.reverse with
  | count :: last :: others =>
    (wordOfText? count).map (make (" ".intercalate (last :: others).reverse))
  | _ => none

/-- An instruction with a name and nothing else. -/
def named? (make : String → Instruction) (operands : List String) : Option Instruction :=
  if operands = [] then none else some (make (" ".intercalate operands))

/-- The instruction that consists of these words. -/
def ofWords? : List String → Option Instruction
  | "push" :: operands => indexed? push operands
  | "pop" :: operands => indexed? pop operands
  | "label" :: operands => named? label operands
  | "goto" :: operands => named? goto operands
  | "if-goto" :: operands => named? ifGoto operands
  | "call" :: operands => counted? call operands
  | "function" :: operands => counted? function operands
  | ["return"] => some .return
  | [command] => (Arithmetic.ofText? command).map arithmetic
  | _ => none

def ofLine? (line : String) : Option Instruction := ofWords? (words line)

/-- The fields of the line of an instruction, in the order in which they stand there. -/
def fields : Instruction → List String
  | push segment index => ["push", segment.text, toString index]
  | pop segment index => ["pop", segment.text, toString index]
  | arithmetic command => [command.text]
  | label name => ["label", name]
  | goto target => ["goto", target]
  | ifGoto target => ["if-goto", target]
  | call name arguments => ["call", name, toString arguments]
  | function name locals => ["function", name, toString locals]
  | .return => ["return"]

theorem text_eq_intercalate (i : Instruction) : i.text = " ".intercalate i.fields := by
  cases i <;> simp [text, fields, String.append_assoc] <;> rfl

theorem words_text (i : Instruction) : words i.text = i.fields.flatMap words := by
  rw [text_eq_intercalate, words_intercalate]
  cases i <;> exact List.cons_ne_nil _ _

theorem indexed?_words (make : Segment → UInt32 → Instruction) (segment : Segment)
    (index : UInt32) :
    indexed? make (words segment.text ++ words (toString index)) = some (make segment index) := by
  rw [segment.words_text, words_number]
  show (do return make (← Segment.ofText? segment.text) (← wordOfText? (toString index))) = _
  rw [Segment.ofText?_text, wordOfText?_eq_some_iff.mpr rfl]
  rfl

theorem counted?_words (make : String → UInt32 → Instruction) (name : String) (count : UInt32) :
    counted? make (words name ++ words (toString count)) = some (make name count) := by
  -- the name has a word, if it is only the empty one, so the count is not the first word
  obtain ⟨last, others, hname⟩ := List.exists_cons_of_ne_nil
    (mt List.reverse_eq_nil_iff.mp (words_ne_nil name))
  have hwords : (words name ++ words (toString count)).reverse =
      toString count :: last :: others := by
    rw [words_number, List.reverse_append, List.reverse_singleton, List.singleton_append, hname]
  unfold counted?
  rw [hwords]
  dsimp only
  rw [wordOfText?_eq_some_iff.mpr rfl, ← hname, List.reverse_reverse, intercalate_words]
  rfl

theorem named?_words (make : String → Instruction) (name : String) :
    named? make (words name) = some (make name) := by
  rw [named?, if_neg (words_ne_nil name), intercalate_words]

theorem ofLine?_text (i : Instruction) : ofLine? i.text = some i := by
  rw [ofLine?, words_text]
  cases i <;> simp only [fields, List.flatMap_cons, List.flatMap_nil, List.append_nil]
  case push segment index => exact indexed?_words push segment index
  case pop segment index => exact indexed?_words pop segment index
  case arithmetic command => cases command <;> rfl
  case label name => exact named?_words label name
  case goto target => exact named?_words goto target
  case ifGoto target => exact named?_words ifGoto target
  case call name arguments => exact counted?_words call name arguments
  case function name locals => exact counted?_words function name locals
  case «return» => rfl

/-! What is read from a line is written as the line. -/

variable {operands : List String} {i : Instruction}

theorem exists_of_indexed? {make : Segment → UInt32 → Instruction}
    (h : indexed? make operands = some i) :
    ∃ segment index, make segment index = i ∧ operands = [segment.text, toString index] := by
  unfold indexed? at h
  split at h
  · simp only [Option.bind_eq_bind, Option.bind_eq_some_iff, Segment.ofText?_eq_some_iff,
      wordOfText?_eq_some_iff, Option.pure_def, Option.some.injEq] at h
    obtain ⟨segment, rfl, index, rfl, rfl⟩ := h
    exact ⟨segment, index, rfl, rfl⟩
  · cases h

theorem exists_of_counted? {make : String → UInt32 → Instruction}
    (h : counted? make operands = some i) :
    ∃ name count, make name count = i ∧ ∀ first : String,
      " ".intercalate (first :: operands) = " ".intercalate [first, name, toString count] := by
  unfold counted? at h
  split at h
  · next digits last others hoperands =>
    simp only [Option.map_eq_some_iff, wordOfText?_eq_some_iff] at h
    obtain ⟨count, rfl, rfl⟩ := h
    refine ⟨_, count, rfl, fun first => ?_⟩
    rw [← List.reverse_reverse operands, hoperands, List.reverse_cons,
      String.intercalate_cons_of_ne_nil (by simp),
      String.intercalate_append_of_ne_nil (by simp) (List.cons_ne_nil _ _)]
    simp
  · cases h

theorem exists_of_named? {make : String → Instruction} (h : named? make operands = some i) :
    ∃ name, make name = i ∧ ∀ first : String,
      " ".intercalate (first :: operands) = " ".intercalate [first, name] := by
  rw [named?, Option.ite_none_left_eq_some, Option.some.injEq] at h
  refine ⟨_, h.2, fun first => ?_⟩
  rw [String.intercalate_cons_of_ne_nil h.1, String.intercalate_cons_of_ne_nil (by simp),
    String.intercalate_singleton]

theorem text_of_ofWords? {ws : List String} (h : ofWords? ws = some i) :
    i.text = " ".intercalate ws := by
  rw [text_eq_intercalate]
  unfold ofWords? at h
  split at h
  case h_1 | h_2 =>
    obtain ⟨segment, index, rfl, rfl⟩ := exists_of_indexed? h
    rfl
  case h_3 | h_4 | h_5 =>
    obtain ⟨name, rfl, hline⟩ := exists_of_named? h
    exact (hline _).symm
  case h_6 | h_7 =>
    obtain ⟨name, count, rfl, hline⟩ := exists_of_counted? h
    exact (hline _).symm
  case h_8 =>
    cases h
    rfl
  case h_9 =>
    obtain ⟨command, hcommand, rfl⟩ := Option.map_eq_some_iff.mp h
    rw [← Arithmetic.ofText?_eq_some_iff.mp hcommand]
    rfl
  case h_10 => cases h

/-- A line is read as an instruction exactly if it is the text of the instruction. -/
theorem ofLine?_eq_some_iff {line : String} : ofLine? line = some i ↔ i.text = line := by
  constructor
  · intro h
    rw [text_of_ofWords? h, intercalate_words]
  · rintro rfl
    exact ofLine?_text i

theorem text_injective : Function.Injective text := by
  intro i j h
  have hread := ofLine?_text i
  rw [h, ofLine?_text] at hread
  exact (Option.some.inj hread).symm

/-- The name or label in an instruction. -/
def name? : Instruction → Option String
  | label name | goto name | ifGoto name | call name _ | function name _ => some name
  | push _ _ | pop _ _ | arithmetic _ | .return => none

theorem newline_mem_text : '\n' ∈ i.text.toList ↔ ∃ name ∈ i.name?, '\n' ∈ name.toList := by
  have hnumber (n : UInt32) : '\n' ∉ (toString n).toList := fun h => by
    simpa using toString_word_mem h
  have hsegment (s : Segment) : '\n' ∉ s.text.toList := by cases s <;> decide
  have hcommand (a : Arithmetic) : '\n' ∉ a.text.toList := by cases a <;> decide
  rw [text_eq_intercalate, newline_mem_intercalate]
  cases i <;> simp [fields, name?, hnumber, hsegment, hcommand]

end Instruction

namespace Program

/-- No name or label has a newline in it. -/
def OnLines (p : Program) : Prop := ∀ i ∈ p, ∀ name ∈ i.name?, '\n' ∉ name.toList

/-- The instructions on the lines of a text. Behind the newline that ends the last of them there
is nothing. -/
def ofLines? : List String → Option Program
  | [] => none
  | [last] => if last = "" then some [] else none
  | line :: others => do return (← Instruction.ofLine? line) :: (← ofLines? others)

def ofText? (text : String) : Option Program := ofLines? (parts '\n' text)

theorem text_cons (i : Instruction) (p : Program) :
    Program.text (i :: p) = i.text ++ "\n" ++ p.text := by
  simp [Program.text]

theorem onLines_iff {p : Program} : p.OnLines ↔ ∀ i ∈ p, '\n' ∉ i.text.toList := by
  simp only [OnLines, Instruction.newline_mem_text, not_exists, not_and]

theorem parts_text {p : Program} (h : p.OnLines) :
    parts '\n' p.text = p.map (·.text) ++ [""] := by
  rw [onLines_iff] at h
  induction p with
  | nil => rfl
  | cons i p ih =>
    obtain ⟨hi, hp⟩ := List.forall_mem_cons.mp h
    rw [text_cons, show "\n" = String.singleton '\n' from rfl, parts_append,
      parts_of_not_mem hi, ih hp]
    rfl

theorem intercalate_lines (p : Program) : "\n".intercalate (p.map (·.text) ++ [""]) = p.text := by
  induction p with
  | nil => rfl
  | cons i p ih =>
    rw [List.map_cons, List.cons_append, String.intercalate_cons_of_ne_nil (by simp), ih, text_cons]

theorem ofLines?_eq_some_iff {lines : List String} {p : Program} :
    ofLines? lines = some p ↔ lines = p.map (·.text) ++ [""] := by
  fun_induction ofLines? lines generalizing p with
  | case1 => simp
  | case2 => cases p <;> simp
  | case3 last hlast => cases p <;> simp [hlast]
  | case4 line others hothers ih =>
    simp only [Option.bind_eq_bind, Option.bind_eq_some_iff, Option.pure_def, Option.some.injEq,
      Instruction.ofLine?_eq_some_iff, ih]
    cases p with
    | nil => simpa using fun _ => hothers
    | cons i p =>
      constructor
      · rintro ⟨_, rfl, _, rfl, hp⟩
        cases hp
        rfl
      · intro h
        cases h
        exact ⟨i, rfl, p, rfl, rfl⟩

/-- A text is read as a program exactly if it is the text of the program and every instruction has
a line to itself. -/
theorem ofText?_eq_some_iff {text : String} {p : Program} :
    ofText? text = some p ↔ p.OnLines ∧ p.text = text := by
  rw [ofText?, ofLines?_eq_some_iff]
  constructor
  · intro hparts
    constructor
    · rw [onLines_iff]
      intro i hi
      have hline : i.text ∈ parts '\n' text := by
        rw [hparts]
        exact List.mem_append_left _ (List.mem_map_of_mem hi)
      exact not_mem_of_mem_parts hline
    · rw [← intercalate_lines, ← hparts]
      exact intercalate_parts '\n' text
  · rintro ⟨hlines, rfl⟩
    exact parts_text hlines

/-- Different programs have different texts, if no name has a newline in it. -/
theorem eq_of_text_eq {p q : Program} (hp : p.OnLines) (hq : q.OnLines)
    (h : p.text = q.text) : p = q := by
  have hread : ofText? p.text = some p := ofText?_eq_some_iff.mpr ⟨hp, rfl⟩
  rw [h, ofText?_eq_some_iff.mpr ⟨hq, rfl⟩] at hread
  exact (Option.some.inj hread).symm

end Program

end Jack
