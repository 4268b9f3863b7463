import Jack.Proofs.Class.Shape
import Jack.Proofs.Statement.Code

/-! Labels are looked up inside one subroutine, where none occurs twice, so the statements of
each subroutine do what they say. -/

namespace Jack

namespace Class

/-- A run that starts behind the prologue of a subroutine, with any store and above any stack, is
over in a state with some outcome exactly if the statements have that outcome, and it is over at
some time exactly if they have one. -/
theorem subroutines_do_their_statements {c : Class} {p : Program} (compiled : c.code = .ok p)
    (fits : c.callsFit) (hifs : c.labels.ifs < 2 ^ 32 - 1) (hwhiles : c.labels.whiles < 2 ^ 32 - 1)
    {k : Nat} {s : Subroutine} (hs : c.subroutines[k]? = some s) :
    ∃ scope body, (c.scope >>= s.scope) = .ok scope ∧
      p.functions[k]? = some (s.prologue scope ++ body) ∧
      ∀ (oracle : Oracle) (store : Store) (stack : List Word) (scratch : Scratch),
        let code := s.prologue scope ++ body
        let start := Point.state ⟨(s.prologue scope).length, store, stack⟩ scratch
        (∀ o, Statement.ListExec oracle scope s.body.statements store o ↔
          ∃ t, start.Reaches oracle code t ∧ code.Final stack o t) ∧
        ((∃ o, Statement.ListExec oracle scope s.body.statements store o) ↔
          ∃ n, start.StopsWithin oracle code n) := by
  obtain ⟨outer, houter, hcode⟩ := code_eq_ok compiled
  obtain ⟨earlier, scope, body, hscope, hbody, hk, hle, hle'⟩ :=
    Subroutine.functions_listCode hcode hs
  have hfits := fits s (List.mem_of_getElem? hs)
  -- numbers are counted through the whole class, so each stretch ends before they run out
  have hcount : (0 : LabelCount) + Subroutine.listLabels c.subroutines = c.labels := by
    ext <;> simp [labels]
  rw [hcount, Subroutine.labels] at hle hle'
  have hunique : (s.prologue scope ++ body).labels.Nodup := by
    rw [Program.labels_append, s.labels_prologue, List.nil_append]
    exact Statement.nodup_labels_listCode hbody (by omega) (by omega)
  refine ⟨scope, body, by rw [houter]; exact hscope, hk, ?_⟩
  intro oracle store stack scratch
  exact ⟨Statement.listExec_iff_reaches_final hunique hfits hbody rfl store stack scratch,
    Statement.exists_listExec_iff_stops hunique hfits hbody rfl store stack scratch⟩

end Class

theorem subroutines_do_their_statements_summing :
    summing.code = .ok summingCode ∧ summing.callsFit ∧ summing.labels.ifs < 2 ^ 32 - 1 ∧
      summing.labels.whiles < 2 ^ 32 - 1 ∧ summing.subroutines[0]? = some sumElements ∧
      ∃ scope body, (summing.scope >>= sumElements.scope) = .ok scope ∧
        summingCode.functions[0]? = some (sumElements.prologue scope ++ body) ∧
        ∀ (oracle : Oracle) (store : Store) (stack : List Word) (scratch : Scratch),
          let code := sumElements.prologue scope ++ body
          let start := Point.state ⟨(sumElements.prologue scope).length, store, stack⟩ scratch
          (∀ o, Statement.ListExec oracle scope sumElements.body.statements store o ↔
            ∃ t, start.Reaches oracle code t ∧ code.Final stack o t) ∧
          ((∃ o, Statement.ListExec oracle scope sumElements.body.statements store o) ↔
            ∃ n, start.StopsWithin oracle code n) := by
  have compiled : summing.code = .ok summingCode := rfl
  have fits : summing.callsFit := by
    intro s hs
    rw [List.mem_singleton.mp hs]
    rfl
  have hifs : summing.labels.ifs < 2 ^ 32 - 1 := by decide
  have hwhiles : summing.labels.whiles < 2 ^ 32 - 1 := by decide
  exact ⟨compiled, fits, hifs, hwhiles, rfl,
    Class.subroutines_do_their_statements compiled fits hifs hwhiles rfl⟩

end Jack
