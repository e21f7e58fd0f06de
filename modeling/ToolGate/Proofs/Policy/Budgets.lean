import ToolGate.Policy.Document
import ToolGate.Proofs.Json.Shapes

namespace ToolGate

namespace Policy

def Compiled (p : Policy) : Prop :=
  ∃ document, ofJson document = .ok p

theorem ofJson_ok {v : Json} {p : Policy} (h : ofJson v = .ok p) :
    ∃ d, PolicyDocument.shape (some v) = .ok d ∧ d.compile = .ok p := by
  unfold ofJson at h
  split at h
  · cases h
  · split at h
    · cases h
    · exact ⟨_, by assumption, h⟩

theorem compile_ok {d : PolicyDocument} {p : Policy} (h : d.compile = .ok p) :
    p.budgets = d.budgets := by
  obtain ⟨tools, -, hp⟩ := bind_ok.1 h
  rw [← pure_ok.1 hp]

theorem budgetsShape_ok {v : Option Json} {b : PolicyBudgets}
    (h : PolicyDocument.budgetsShape v = .ok b) :
    ∀ x ∈ [b.values, b.parentsPerValue, b.closureSteps, b.witnessDepth], x.isInteger ∧ 0 < x := by
  simp only [PolicyDocument.budgetsShape, bind_ok, pure_ok, Json.Shape.member_ok] at h
  obtain ⟨ms, -, values, hv, parents, hp, steps, hs, depth, hd, -, -, rfl⟩ := h
  simp only [List.forall_mem_cons, List.not_mem_nil, false_imp_iff, implies_true, and_true]
  exact ⟨Json.Shape.positive_ok hv, Json.Shape.positive_ok hp, Json.Shape.positive_ok hs,
    Json.Shape.positive_ok hd⟩

theorem Compiled.budgets {p : Policy} (h : p.Compiled) :
    ∀ x ∈ [p.budgets.values, p.budgets.parentsPerValue, p.budgets.closureSteps,
      p.budgets.witnessDepth], x.isInteger ∧ 0 < x := by
  obtain ⟨v, hv⟩ := h
  obtain ⟨d, hd, hp⟩ := ofJson_ok hv
  rw [compile_ok hp]
  simp only [PolicyDocument.shape, bind_ok, pure_ok, Json.Shape.member_ok] at hd
  obtain ⟨ms, -, -, -, name, -, allows, -, strict, -, budgets, hb, tools, -, -, -, rfl⟩ := hd
  exact budgetsShape_ok hb

theorem Compiled.closureSteps {p : Policy} (h : p.Compiled) : p.budgets.closureSteps.isInteger :=
  (h.budgets _ (by simp)).1

end Policy

end ToolGate
