import Jack.Proofs.Class.Shape
import Jack.Proofs.Statement.Height

/-! Heights in the code of a class. Each subroutine begins on a stack of its own, which is empty
behind its prologue, so the heights of its statements are heights of its block. -/

namespace Jack

open Code

namespace Subroutine

theorem height?_prologue (s : Subroutine) (scope : Scope) :
    ∃ name locals rest, s.prologue scope = .function name locals :: rest ∧
      Program.height? rest 0 = some 0 := by
  unfold prologue
  refine ⟨_, _, _, rfl, ?_⟩
  cases s.kind with
  | function => rfl
  | method => rfl
  | constructor => rfl

/-- The heights that a block of code gives itself obey the discipline, and they are 0 around each
statement. -/
theorem disciplined_block {s : Subroutine} {scope : Scope} {before : LabelCount} {body : Program}
    (hbody : Statement.listCode scope before s.body.statements = .ok body)
    (fits : Statement.listCallsFit s.body.statements) :
    let block := s.prologue scope ++ body
    block.Disciplined (Program.heights block) ∧
    ∀ place ∈ Statement.listPlaces scope before s.body.statements,
      ∃ code, place.statement.code scope place.before = .ok code ∧
        Program.HasAt block (s.prologue scope ++ place.front).length code ∧
        Program.heights block (s.prologue scope ++ place.front).length = 0 ∧
        Program.heights block (s.prologue scope ++ place.front ++ code).length = 0 := by
  obtain ⟨name, locals, rest, hprologue, hrest⟩ := s.height?_prologue scope
  have hopening : Program.height? (s.prologue scope) 0 = some 0 := by simp [hprologue, hrest]
  have hbodyHeight := Statement.height?_cases.listCode _ hbody fits
  constructor
  · rw [hprologue, List.cons_append]
    refine Program.disciplined_heights (Option.isSome_iff_exists.mpr ⟨0, ?_⟩)
    rw [Program.height?_append, hrest, Option.bind_some, hbodyHeight]
  · intro place hplace
    obtain ⟨code, after, hcode, rfl, hfront, hheight⟩ :=
      Statement.level_cases.listCode _ hbody fits place hplace
    have hstart : Program.height? (s.prologue scope ++ place.front) 0 = some 0 := by
      rw [Program.height?_append, hopening, Option.bind_some, hfront]
    have hend : Program.height? (s.prologue scope ++ place.front ++ code) 0 = some 0 := by
      rw [Program.height?_append, hstart, Option.bind_some, hheight]
    have hblock : s.prologue scope ++ (place.front ++ code ++ after) =
        s.prologue scope ++ place.front ++ code ++ after := by simp only [List.append_assoc]
    rw [hblock]
    refine ⟨code, hcode, ⟨_, after, rfl, rfl⟩, ?_, Program.heights_of_append hend⟩
    rw [List.append_assoc _ code after]
    exact Program.heights_of_append hstart

end Subroutine

namespace Class

/-- A subroutine that returns has left one word above what it found on the stack. -/
theorem stack_length_at_return {c : Class} {p : Program} (compiled : c.code = .ok p)
    (fits : c.callsFit) {k : Nat} {block : Program} (hblock : p.functions[k]? = some block)
    {oracle : Oracle} {s t : State} (hs : s.pc = 1) (run : s.Reaches oracle block t)
    (ht : block[t.pc]? = some .return) :
    t.machine.stack.length = s.machine.stack.length + 1 := by
  obtain ⟨outer, -, hcode⟩ := code_eq_ok compiled
  obtain ⟨sub, before, scope, body, hsub, -, hbody, rfl⟩ :=
    Subroutine.exists_of_functions_listCode hcode hblock
  obtain ⟨disciplined, -⟩ :=
    Subroutine.disciplined_block hbody (fits sub (List.mem_of_getElem? hsub))
  have hstart : s.machine.stack.length =
      s.machine.stack.length + Program.heights (sub.prologue scope ++ body) s.pc := by
    rw [hs, disciplined.start, Nat.add_zero]
  rw [disciplined.stack_length_of_reaches hstart run, disciplined.atReturn ht]

/-- Each subroutine keeps to a height of the stack in front of each of its instructions, which is
0 where a statement begins and where it ends. -/
theorem functions_disciplined {c : Class} {p : Program} (compiled : c.code = .ok p)
    (fits : c.callsFit) {k : Nat} {block : Program} (hblock : p.functions[k]? = some block) :
    ∃ s before scope body height,
      c.subroutines[k]? = some s ∧ (c.scope >>= s.scope) = .ok scope ∧
      Statement.listCode scope before s.body.statements = .ok body ∧
      block = s.prologue scope ++ body ∧
      block.Disciplined height ∧
      ∀ place ∈ Statement.listPlaces scope before s.body.statements,
        ∃ code, place.statement.code scope place.before = .ok code ∧
          block.HasAt (s.prologue scope ++ place.front).length code ∧
          height (s.prologue scope ++ place.front).length = 0 ∧
          height (s.prologue scope ++ place.front ++ code).length = 0 := by
  obtain ⟨outer, houter, hcode⟩ := code_eq_ok compiled
  obtain ⟨s, before, scope, body, hs, hscope, hbody, rfl⟩ :=
    Subroutine.exists_of_functions_listCode hcode hblock
  obtain ⟨disciplined, places⟩ :=
    Subroutine.disciplined_block hbody (fits s (List.mem_of_getElem? hs))
  exact ⟨s, before, scope, body, _, hs, by rw [houter]; exact hscope, hbody, rfl, disciplined,
    places⟩

end Class

theorem functions_disciplined_summing :
    summing.code = .ok summingCode ∧ summing.callsFit ∧
      summingCode.functions[0]? = some summingCode ∧
      ∃ height, summingCode.Disciplined height := by
  have compiled : summing.code = .ok summingCode := rfl
  have fits : summing.callsFit := by
    intro s hs
    rw [List.mem_singleton.mp hs]
    rfl
  have hblock : summingCode.functions[0]? = some summingCode := by decide
  obtain ⟨_, _, _, _, height, -, -, -, -, disciplined, -⟩ :=
    Class.functions_disciplined compiled fits hblock
  exact ⟨compiled, fits, hblock, height, disciplined⟩

end Jack
