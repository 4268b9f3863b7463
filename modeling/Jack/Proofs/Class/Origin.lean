import Jack.Proofs.Class.Shape
import Jack.Proofs.Class.WellFormed
import Jack.Proofs.Frame
import Jack.Proofs.Statement.Origin

/-! Where the instructions of a class come from, and which constants it pushes. The numbers and the
characters of a text are small enough for the machine. What the code counts by itself is not
compared with anything: the length of a string and the number of fields that a constructor makes
room for are pushed whatever they are, and constants from 32768 on are never anything else. -/

namespace Jack

theorem string_mem_separatedTokens {α : Type} {spell : α → List Token} {values : List α}
    {text : String} :
    .string text ∈ Reading.separatedTokens spell values ↔ ∃ v ∈ values, .string text ∈ spell v := by
  cases values with
  | nil => simp [Reading.separatedTokens]
  | cons first others => simp [Reading.separatedTokens, Reading.tokensAfterCommas]

theorem ValueType.token_ne_string (type : ValueType) (text : String) :
    type.token ≠ .string text := by
  cases type <;> exact Token.noConfusion

theorem string_not_mem_namesTokens (names : List String) (text : String) :
    .string text ∉ namesTokens names := by
  simp [namesTokens, nameTokens, string_mem_separatedTokens]

namespace Subroutine

theorem string_mem_tokens {s : Subroutine} {text : String} :
    .string text ∈ s.tokens ↔ .string text ∈ Statement.listTokens s.body.statements := by
  have htype : returnToken s.returnType ≠ .string text := by
    cases s.returnType with
    | none => exact Token.noConfusion
    | some type => exact type.token_ne_string text
  have hparameters : .string text ∉ Reading.separatedTokens Parameter.tokens s.parameters := by
    simp [string_mem_separatedTokens, Parameter.tokens, (ValueType.token_ne_string _ text).symm]
  simp [tokens, SubroutineBody.tokens, Locals.tokens, htype.symm, hparameters,
    string_not_mem_namesTokens, (ValueType.token_ne_string _ text).symm]

theorem constant_mem_prologue {s : Subroutine} {scope : Scope} {n : UInt32} :
    .push .constant n ∈ s.prologue scope ↔ s.kind = .constructor ∧ scope.fieldCount = n := by
  unfold prologue
  cases s.kind <;> simp [eq_comm]

end Subroutine

namespace Class

variable {c : Class} {p : Program}

/-- Strings are in statements only. -/
theorem string_mem_tokens {text : String} :
    .string text ∈ c.tokens ↔
      ∃ s ∈ c.subroutines, .string text ∈ Statement.listTokens s.body.statements := by
  simp [tokens, ClassVariables.tokens, string_not_mem_namesTokens,
    (ValueType.token_ne_string _ text).symm, Subroutine.string_mem_tokens]

theorem Encloses.fieldCount_eq {s : Subroutine} {scope : Scope} (h : c.Encloses s scope) :
    scope.fieldCount = UInt32.ofNat (c.variableNames .field).length := by
  rw [Scope.fieldCount, h.outer, List.getLast?_singleton, Option.getD_some,
    Frame.count_ofDeclarations, ← c.countP_declarations .field]
  rfl

/-- An instruction of a class opens one of its subroutines or comes from the text of one. -/
theorem exists_of_mem_code (compiled : c.code = .ok p) {i : Instruction} (hi : i ∈ p) :
    ∃ s ∈ c.subroutines, ∃ scope, c.Encloses s scope ∧
      (i ∈ s.prologue scope ∨ i.ComesFrom scope (Statement.listTokens s.body.statements)) := by
  obtain ⟨outer, houter, hcode⟩ := code_eq_ok compiled
  obtain ⟨s, hs, scope, earlier, body, hscope, hbody, hi⟩ :=
    Subroutine.exists_of_mem_listCode hcode hi
  exact ⟨s, hs, scope, encloses_of_scope houter hscope,
    hi.imp_right (Statement.comesFrom_listCode hbody i)⟩

theorem subroutine_wellFormed (written : c.wellFormed) {s : Subroutine} (hs : s ∈ c.subroutines) :
    s.wellFormed := by
  simp only [wellFormed, Bool.and_eq_true, List.all_eq_true] at written
  exact written.2 s hs

theorem listWellFormed_statements (written : c.wellFormed) {s : Subroutine}
    (hs : s ∈ c.subroutines) : Token.listWellFormed (Statement.listTokens s.body.statements) := by
  have hsubroutine := subroutine_wellFormed written hs
  simp only [Subroutine.wellFormed, Bool.and_eq_true] at hsubroutine
  rw [Statement.listWellFormed_listTokens]
  exact hsubroutine.2

end Class

namespace Instruction.ComesFrom

variable {scope : Scope} {ts : List Token} {n : UInt32}

theorem constant_cases (h : (push .constant n).ComesFrom scope ts) :
    n = 0 ∨ .integer n ∈ ts ∨ (∃ text, .string text ∈ ts ∧ UInt32.ofNat text.length = n) ∨
      ∃ text, .string text ∈ ts ∧ ∃ c ∈ text.toList, c.val = n := by
  -- most instructions are none that push, and no variable is in the segment of constants
  generalize hi : push .constant n = i at h
  cases h with
  | @read name v hname hv =>
    have hsegment : v.segment = .constant := (push.inj hi).1.symm
    unfold Variable.segment at hsegment
    cases hkind : v.kind <;> rw [hkind] at hsegment <;> cases hsegment
  | integer hvalue =>
    cases hi
    exact .inr (.inl hvalue)
  | length htext =>
    cases hi
    exact .inr (.inr (.inl ⟨_, htext, rfl⟩))
  | character htext hc =>
    cases hi
    exact .inr (.inr (.inr ⟨_, htext, _, hc, rfl⟩))
  | zero =>
    cases hi
    exact .inl rfl
  | load hscratch =>
    cases hi
    cases hscratch
  | _ => cases hi

/-- A constant too large to be written in a text is the length of a string. -/
theorem exists_string_of_large (written : Token.listWellFormed ts) (large : maxInteger < n.toNat)
    (h : (push .constant n).ComesFrom scope ts) :
    ∃ text, .string text ∈ ts ∧ UInt32.ofNat text.length = n := by
  have hts := List.all_eq_true.mp written
  unfold maxInteger at large
  rcases h.constant_cases with rfl | hvalue | hlength | ⟨text, htext, c, hc, rfl⟩
  · cases large
  · have hle : n.toNat ≤ 32767 := of_decide_eq_true (hts _ hvalue)
    omega
  · exact hlength
  · have hascii : c.toNat < 128 := (isQuotation_iff.mp (hts _ htext) c hc).1
    have hval : c.val.toNat = c.toNat := rfl
    omega

end Instruction.ComesFrom

namespace Class

variable {c : Class} {p : Program}

theorem large_constant_mem_iff (written : c.wellFormed) (compiled : c.code = .ok p) {n : UInt32}
    (large : maxInteger < n.toNat) :
    .push .constant n ∈ p ↔
      (∃ text, .string text ∈ c.tokens ∧ UInt32.ofNat text.length = n) ∨
        ((∃ s ∈ c.subroutines, s.kind = .constructor) ∧
          UInt32.ofNat (c.variableNames .field).length = n) := by
  constructor
  · intro hmem
    obtain ⟨s, hs, scope, hencloses, hi | hi⟩ := exists_of_mem_code compiled hmem
    · obtain ⟨hkind, hcount⟩ := Subroutine.constant_mem_prologue.mp hi
      exact .inr ⟨⟨s, hs, hkind⟩, hencloses.fieldCount_eq.symm.trans hcount⟩
    · obtain ⟨text, htext, hlength⟩ :=
        hi.exists_string_of_large (listWellFormed_statements written hs) large
      exact .inl ⟨text, string_mem_tokens.mpr ⟨s, hs, htext⟩, hlength⟩
  · obtain ⟨outer, houter, hcode⟩ := code_eq_ok compiled
    rintro (⟨text, htext, rfl⟩ | ⟨⟨s, hs, hkind⟩, rfl⟩)
    · obtain ⟨s, hs, htext⟩ := string_mem_tokens.mp htext
      obtain ⟨scope, earlier, body, -, hbody, hsubset⟩ := Subroutine.code_subset_listCode hcode hs
      have hpush := Statement.pushLength_mem_listCode hbody htext
      exact hsubset (List.mem_append_right _ hpush)
    · obtain ⟨scope, earlier, body, hscope, -, hsubset⟩ := Subroutine.code_subset_listCode hcode hs
      have hcount := (encloses_of_scope houter hscope).fieldCount_eq
      have hpush := Subroutine.constant_mem_prologue.mpr ⟨hkind, hcount⟩
      exact hsubset (List.mem_append_left _ hpush)

end Class

namespace Source

theorem compile_eq_ok_iff {text : String} {p : Program} :
    compile text = .ok p ↔ ∃ c, parse text = .ok c ∧ c.code = .ok p := by
  unfold compile
  cases parse text <;> simp [bind, Except.bind]

/-- A program pushes a constant larger than any in a text exactly for a string of that length, or
in a constructor for as many fields. -/
theorem large_constants_are_counts {text : String} {p : Program} (compiled : compile text = .ok p) :
    ∃ c, parse text = .ok c ∧ ∀ n : UInt32, maxInteger < n.toNat →
      (.push .constant n ∈ p ↔
        (∃ string, .string string ∈ c.tokens ∧ UInt32.ofNat string.length = n) ∨
          ((∃ s ∈ c.subroutines, s.kind = .constructor) ∧
            UInt32.ofNat (c.variableNames .field).length = n)) := by
  obtain ⟨c, hparse, hcode⟩ := compile_eq_ok_iff.mp compiled
  exact ⟨c, hparse, fun n large =>
    Class.large_constant_mem_iff (wellFormed_of_parse hparse) hcode large⟩

end Source

/-- A class that prints a string. -/
def printing (string : String) : Class where
  name := "Main"
  varDecs := []
  subroutines := [{
    kind := .function
    returnType := none
    name := "main"
    parameters := []
    body := {
      locals := []
      statements := [
        .do (.mk (some "Output") "printString" [.term (.string string)]),
        .return none] } }]

def printingCode (string : String) : Program :=
  .function "Main.main" 0 :: stringCode string ++
    [.call "Output.printString" 1, .pop .temp 0, .push .constant 0, .return]

theorem compile_printing {string : String} (h : isQuotation string) :
    Source.compile (printing string).text = .ok (printingCode string) := by
  have hwritten : (printing string).wellFormed := by
    simp [printing, Class.wellFormed, Subroutine.wellFormed, Statement.listWellFormed,
      Statement.wellFormed, Call.wellFormed, Expression.listWellFormed, Expression.wellFormed,
      Term.wellFormed, h]
    decide
  have hcode : (printing string).code = .ok ([.function "Main.main" 0] ++
      ([] ++ (stringCode string ++ []) ++ [.call "Output.printString" 1] ++ [.pop .temp 0] ++
        [.push .constant 0, .return]) ++ []) := rfl
  refine Source.compile_eq_ok_iff.mpr ⟨printing string, Source.parse_text hwritten, ?_⟩
  rw [hcode]
  simp [printingCode]

/-- A string of letters as long as wanted. -/
def letters (n : Nat) : String := String.ofList (List.replicate n 'a')

theorem isQuotation_letters (n : Nat) : isQuotation (letters n) := by
  rw [isQuotation_iff, letters, String.toList_ofList]
  intro c hc
  rw [List.eq_of_mem_replicate hc]
  decide

theorem pushLength_mem_printingCode (string : String) : pushLength string ∈ printingCode string :=
  List.mem_append_left _ (List.mem_cons_of_mem _ List.mem_cons_self)

theorem length_letters (n : Nat) : (letters n).length = n := by
  simp [letters]

/-- One character more than the largest constant. -/
theorem large_constants_are_counts_letters :
    Source.compile (printing (letters 32768)).text = .ok (printingCode (letters 32768)) ∧
      maxInteger < (32768 : UInt32).toNat ∧
      ∃ c, Source.parse (printing (letters 32768)).text = .ok c ∧
        (.push .constant 32768 ∈ printingCode (letters 32768) ↔
          (∃ string, .string string ∈ c.tokens ∧ UInt32.ofNat string.length = 32768) ∨
            ((∃ s ∈ c.subroutines, s.kind = .constructor) ∧
              UInt32.ofNat (c.variableNames .field).length = 32768)) := by
  have compiled := compile_printing (isQuotation_letters 32768)
  have large : maxInteger < (32768 : UInt32).toNat := by decide
  obtain ⟨c, hparse, hiff⟩ := Source.large_constants_are_counts compiled
  exact ⟨compiled, large, c, hparse, hiff 32768 large⟩

/-- The program pushes a constant that no text can hold. -/
theorem constant_too_large_letters :
    ∃ p, Source.compile (printing (letters 32768)).text = .ok p ∧
      ∃ n, .push .constant n ∈ p ∧ ¬ n.toNat ≤ maxInteger := by
  have hpush := pushLength_mem_printingCode (letters 32768)
  rw [pushLength, length_letters] at hpush
  exact ⟨printingCode (letters 32768), compile_printing (isQuotation_letters 32768), 32768, hpush,
    by decide⟩

end Jack
