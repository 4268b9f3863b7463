import Jack.Proofs.Class.Access
import Jack.Proofs.Class.Origin
import Jack.Proofs.Vm.Line

/-! The lines of compiled code. Names in the code are put together from words of the text, so every
line has one of the forms that the machine knows, and the program can be read back from its text. -/

namespace Jack

/-- The shape of a word. The machine has no reserved words, so `int` is an identifier to it, as in
the call of a method of a variable of that type. -/
def IsIdentifier (text : String) : Prop :=
  ∃ first more, text.toList = first :: more ∧ isWordStart first ∧ ∀ c ∈ more, isWordPart c

def IsSubroutineName (text : String) : Prop :=
  ∃ owner name, IsIdentifier owner ∧ IsIdentifier name ∧ text = s!"{owner}.{name}"

def IsLabelName (text : String) : Prop :=
  ∃ owner, IsIdentifier owner ∧ ∃ (kind : LabelKind) (number : UInt32),
    text = s!"{owner}.{kind.text}${number}"

/-- The forms of a line of machine code. -/
inductive InstructionLine : String → Prop
  | function {name : String} (locals : UInt32) : IsSubroutineName name →
    InstructionLine s!"function {name} {locals}"
  | call {name : String} (arguments : UInt32) : IsSubroutineName name →
    InstructionLine s!"call {name} {arguments}"
  | push (segment : Segment) (index : UInt32) : InstructionLine s!"push {segment.text} {index}"
  | pop (segment : Segment) (index : UInt32) : InstructionLine s!"pop {segment.text} {index}"
  | arithmetic (command : Arithmetic) : InstructionLine command.text
  | label {name : String} : IsLabelName name → InstructionLine s!"label {name}"
  | goto {name : String} : IsLabelName name → InstructionLine s!"goto {name}"
  | ifGoto {name : String} : IsLabelName name → InstructionLine s!"if-goto {name}"
  | return : InstructionLine "return"

/-- The name or label in the instruction is put together as it should be. -/
def Instruction.WellNamed : Instruction → Prop
  | function name _ | call name _ => IsSubroutineName name
  | label name | goto name | ifGoto name => IsLabelName name
  | push _ _ | pop _ _ | arithmetic _ | .return => True

theorem isIdentifier_of_isName {name : String} (h : isName name) : IsIdentifier name := by
  obtain ⟨first, more, hname, starts, inside, -⟩ := exists_of_isName h
  exact ⟨first, more, hname, starts, inside⟩

theorem isIdentifier_of_token {name : String} {ts : List Token} (written : Token.listWellFormed ts)
    (h : .identifier name ∈ ts) : IsIdentifier name :=
  isIdentifier_of_isName (List.all_eq_true.mp written _ h)

theorem ValueType.isIdentifier_text {type : ValueType} (h : type.wellFormed) :
    IsIdentifier type.text := by
  cases type with
  | int => exact ⟨'i', ['n', 't'], rfl, rfl, List.all_eq_true.mp rfl⟩
  | char => exact ⟨'c', ['h', 'a', 'r'], rfl, rfl, List.all_eq_true.mp rfl⟩
  | boolean => exact ⟨'b', ['o', 'o', 'l', 'e', 'a', 'n'], rfl, rfl, List.all_eq_true.mp rfl⟩
  | object name => exact isIdentifier_of_isName h

theorem IsIdentifier.newline_not_mem {name : String} (h : IsIdentifier name) :
    '\n' ∉ name.toList := by
  obtain ⟨first, more, hname, starts, inside⟩ := h
  rw [hname, List.mem_cons, not_or]
  constructor
  · rintro rfl
    exact absurd starts (by decide)
  · intro hmem
    exact absurd (inside _ hmem) (by decide)

theorem IsSubroutineName.newline_not_mem {name : String} (h : IsSubroutineName name) :
    '\n' ∉ name.toList := by
  obtain ⟨owner, name, howner, hname, rfl⟩ := h
  show '\n' ∉ (owner ++ "." ++ name).toList
  simp [howner.newline_not_mem, hname.newline_not_mem]

theorem IsLabelName.newline_not_mem {name : String} (h : IsLabelName name) :
    '\n' ∉ name.toList := by
  obtain ⟨owner, howner, kind, number, rfl⟩ := h
  have hkind : '\n' ∉ kind.text.toList := by cases kind <;> decide
  have hnumber : '\n' ∉ (toString number).toList := fun hmem => by
    simpa using toString_word_mem hmem
  show '\n' ∉ (owner ++ "." ++ kind.text ++ "$" ++ toString number).toList
  simp [howner.newline_not_mem, hkind, hnumber]

namespace Instruction.WellNamed

variable {i : Instruction}

theorem instructionLine (h : i.WellNamed) : InstructionLine i.text := by
  cases i with
  | push segment index => exact .push segment index
  | pop segment index => exact .pop segment index
  | arithmetic command => exact .arithmetic command
  | label name => exact .label h
  | goto target => exact .goto h
  | ifGoto target => exact .ifGoto h
  | call name arguments => exact .call arguments h
  | function name locals => exact .function locals h
  | «return» => exact .return

theorem newline_not_mem (h : i.WellNamed) : ∀ name ∈ i.name?, '\n' ∉ name.toList := by
  cases i with
  | push | pop | arithmetic | «return» =>
    exact fun name hname => absurd hname (Option.not_mem_none _)
  | label | goto | ifGoto =>
    rintro _ ⟨⟩
    exact IsLabelName.newline_not_mem h
  | call | function =>
    rintro _ ⟨⟩
    exact IsSubroutineName.newline_not_mem h

end Instruction.WellNamed

namespace Class

variable {c : Class} {s : Subroutine} {scope : Scope}

theorem isIdentifier_name (written : c.wellFormed) : IsIdentifier c.name := by
  simp only [wellFormed, Bool.and_eq_true] at written
  exact isIdentifier_of_isName written.1.1

theorem isIdentifier_type_of_declarations (written : c.wellFormed) {d : Declaration}
    (hd : d ∈ c.declarations) : IsIdentifier d.type := by
  simp only [wellFormed, Bool.and_eq_true, List.all_eq_true] at written
  obtain ⟨group, hgroup, hd⟩ := List.mem_flatMap.mp hd
  obtain ⟨name, -, rfl⟩ := List.mem_map.mp hd
  have hwritten := written.1.2 group hgroup
  simp only [ClassVariables.wellFormed, Bool.and_eq_true] at hwritten
  exact ValueType.isIdentifier_text hwritten.1

end Class

theorem Subroutine.isIdentifier_type {s : Subroutine} (written : s.wellFormed) {d : Declaration}
    (hd : d ∈ s.declarations) : IsIdentifier d.type := by
  simp only [wellFormed, Bool.and_eq_true, List.all_eq_true] at written
  obtain ⟨⟨⟨-, hparameters⟩, hlocals⟩, -⟩ := written
  rcases List.mem_append.mp hd with hd | hd
  · obtain ⟨p, hp, rfl⟩ := List.mem_map.mp hd
    have hwritten := hparameters p hp
    simp only [Parameter.wellFormed, Bool.and_eq_true] at hwritten
    exact ValueType.isIdentifier_text hwritten.1
  · obtain ⟨group, hgroup, hd⟩ := List.mem_flatMap.mp hd
    obtain ⟨name, -, rfl⟩ := List.mem_map.mp hd
    have hwritten := hlocals group hgroup
    simp only [Locals.wellFormed, Bool.and_eq_true] at hwritten
    exact ValueType.isIdentifier_text hwritten.1

namespace Class

variable {c : Class} {s : Subroutine} {scope : Scope}

theorem isIdentifier_type_of_framed (written : c.wellFormed) (hs : s ∈ c.subroutines)
    {d : Declaration} (hd : d ∈ s.framed c.name) : IsIdentifier d.type := by
  rw [Subroutine.framed, List.mem_append] at hd
  rcases hd with hd | hd
  · split at hd
    · rw [List.mem_singleton.mp hd]
      exact isIdentifier_name written
    · exact absurd hd List.not_mem_nil
  · exact Subroutine.isIdentifier_type (subroutine_wellFormed written hs) hd

theorem Encloses.isIdentifier_type (written : c.wellFormed) (hs : s ∈ c.subroutines)
    (h : c.Encloses s scope) {name : String} {v : Variable} (hv : scope.lookup name = some v) :
    IsIdentifier v.type := by
  rcases h.lookup_cases hv with ⟨hmem, -⟩ | ⟨hmem, -⟩
  · obtain ⟨k, hk, -⟩ := Frame.mem_ofDeclarations.mp hmem
    exact isIdentifier_type_of_framed written hs (List.mem_of_getElem? hk)
  · obtain ⟨k, hk, -⟩ := Frame.mem_ofDeclarations.mp hmem
    exact isIdentifier_type_of_declarations written (List.mem_of_getElem? hk)

/-- A call names the class at hand, the type of a variable or a class in the text. -/
theorem Encloses.isIdentifier_dispatch (written : c.wellFormed) (hs : s ∈ c.subroutines)
    (h : c.Encloses s scope) {receiver : Option String}
    (hreceiver : ∀ object ∈ receiver, IsIdentifier object) :
    IsIdentifier (scope.dispatch receiver).2 := by
  unfold Scope.dispatch
  cases receiver with
  | none =>
    show IsIdentifier scope.className
    rw [h.className]
    exact isIdentifier_name written
  | some object =>
    cases hv : scope.lookup object with
    | none =>
      simp only [hv]
      exact hreceiver object rfl
    | some v =>
      simp only [hv]
      exact h.isIdentifier_type written hs hv

end Class

theorem isSubroutineName_of_isName (owner name : String) (howner : isName owner)
    (hname : isName name) : IsSubroutineName s!"{owner}.{name}" :=
  ⟨owner, name, isIdentifier_of_isName howner, isIdentifier_of_isName hname, rfl⟩

theorem isSubroutineName_of_library {name : String} (h : name ∈ libraryCalls) :
    IsSubroutineName name := by
  simp only [libraryCalls, List.mem_cons, List.not_mem_nil, or_false] at h
  rcases h with rfl | rfl | rfl | rfl
  · exact isSubroutineName_of_isName "Math" "multiply" rfl rfl
  · exact isSubroutineName_of_isName "Math" "divide" rfl rfl
  · exact isSubroutineName_of_isName "String" "new" rfl rfl
  · exact isSubroutineName_of_isName "String" "appendChar" rfl rfl

namespace Class

variable {c : Class} {s : Subroutine} {scope : Scope} {i : Instruction}

theorem Encloses.isLabelName (written : c.wellFormed) (h : c.Encloses s scope) (kind : LabelKind)
    (number : Nat) : IsLabelName (labelName scope.className kind number) := by
  rw [h.className]
  exact ⟨c.name, isIdentifier_name written, kind, UInt32.ofNat number, rfl⟩

theorem Encloses.wellNamed_of_comesFrom (written : c.wellFormed) (hs : s ∈ c.subroutines)
    (h : c.Encloses s scope)
    (hi : i.ComesFrom scope (Statement.listTokens s.body.statements)) : i.WellNamed := by
  have htokens := listWellFormed_statements written hs
  cases hi with
  | library hname => exact isSubroutineName_of_library hname
  | call hreceiver hname =>
    have howner := h.isIdentifier_dispatch written hs fun object hobject =>
      isIdentifier_of_token htokens (hreceiver object hobject)
    exact ⟨_, _, howner, isIdentifier_of_token htokens hname, rfl⟩
  | label => exact h.isLabelName written _ _
  | goto => exact h.isLabelName written _ _
  | ifGoto => exact h.isLabelName written _ _
  | _ => trivial

theorem Encloses.wellNamed_of_prologue (written : c.wellFormed) (hs : s ∈ c.subroutines)
    (h : c.Encloses s scope) (hi : i ∈ s.prologue scope) : i.WellNamed := by
  rcases List.mem_cons.mp hi with rfl | hi
  · have hname : isName s.name := by
      have hsubroutine := subroutine_wellFormed written hs
      simp only [Subroutine.wellFormed, Bool.and_eq_true] at hsubroutine
      exact hsubroutine.1.1.1.2
    rw [h.className]
    exact ⟨c.name, s.name, isIdentifier_name written, isIdentifier_of_isName hname, rfl⟩
  · cases hkind : s.kind with
    | constructor =>
      have hallocate : IsSubroutineName "Memory.alloc" :=
        isSubroutineName_of_isName "Memory" "alloc" rfl rfl
      simp only [hkind, List.mem_cons, List.not_mem_nil, or_false] at hi
      rcases hi with rfl | rfl | rfl
      · trivial
      · exact hallocate
      · trivial
    | method =>
      simp only [hkind, List.mem_cons, List.not_mem_nil, or_false] at hi
      rcases hi with rfl | rfl <;> trivial
    | function =>
      simp only [hkind, List.not_mem_nil] at hi

theorem wellNamed_code (written : c.wellFormed) {p : Program} (compiled : c.code = .ok p) :
    ∀ i ∈ p, i.WellNamed := by
  intro i hi
  obtain ⟨s, hs, scope, hencloses, hi | hi⟩ := exists_of_mem_code compiled hi
  · exact hencloses.wellNamed_of_prologue written hs hi
  · exact hencloses.wellNamed_of_comesFrom written hs hi

end Class

/-- A compiled program is written in lines that the machine knows, each for one instruction, and it
is read back from its text like any program in which no name breaks a line apart. -/
theorem Source.program_read_back :
    (∀ text p, compile text = .ok p → p.OnLines ∧
      ∃ lines : List String, p.text = String.join (lines.map (· ++ "\n")) ∧
        ∀ line ∈ lines, '\n' ∉ line.toList ∧ InstructionLine line ∧
          ∃! i : Instruction, i.text = line) ∧
      (∀ p q : Program, p.OnLines → q.OnLines → p.text = q.text → p = q) ∧
      ∀ p : Program, p.OnLines → Program.ofText? p.text = some p := by
  refine ⟨fun text p compiled => ?_, fun p q hp hq h => Program.eq_of_text_eq hp hq h,
    fun p h => Program.ofText?_eq_some_iff.mpr ⟨h, rfl⟩⟩
  obtain ⟨c, hparse, hcode⟩ := compile_eq_ok_iff.mp compiled
  have hnamed := Class.wellNamed_code (wellFormed_of_parse hparse) hcode
  have hlines : p.OnLines := fun i hi => (hnamed i hi).newline_not_mem
  refine ⟨hlines, p.map (·.text), ?_, fun line hline => ?_⟩
  · rw [List.map_map]
    rfl
  · obtain ⟨i, hi, rfl⟩ := List.mem_map.mp hline
    refine ⟨Program.onLines_iff.mp hlines i hi, (hnamed i hi).instructionLine, i, rfl, ?_⟩
    exact fun j hj => Instruction.text_injective hj

/-- Names that no text has: an empty one, and some that look like parts of a line. -/
def spaced : Program := [.label "", .call "push constant" 1, .function "f 2" 3, .goto " a"]

theorem program_read_back_spaced :
    Source.compile summing.text = .ok summingCode ∧
      (∃ lines : List String, summingCode.text = String.join (lines.map (· ++ "\n")) ∧
        ∀ line ∈ lines, InstructionLine line) ∧
      spaced.OnLines ∧ Program.ofText? spaced.text = some spaced ∧
      ∀ q : Program, q.OnLines → spaced.text = q.text → spaced = q := by
  have compiled : Source.compile summing.text = .ok summingCode :=
    Source.compile_eq_ok_iff.mpr ⟨summing, Source.parse_text (by decide), rfl⟩
  have hspaced : spaced.OnLines := Program.onLines_iff.mpr (by decide)
  obtain ⟨hcompiled, hequal, hread⟩ := Source.program_read_back
  obtain ⟨-, lines, htext, hlines⟩ := hcompiled summing.text summingCode compiled
  exact ⟨compiled, ⟨lines, htext, fun line hline => (hlines line hline).2.1⟩, hspaced,
    hread spaced hspaced, fun q hq h => hequal spaced q hspaced hq h⟩

end Jack
