import ToolGate.Proofs.Provenance.Agreement

namespace ToolGate

namespace Graph

variable {g : Graph} {limit v w : Number}

theorem resolve?_key (g : Graph) (value : Number) : g.resolve? value.key = g.resolve? value := by
  refine Number.apply_key (fun _ => ?_) value
  simp [resolve?, Number.natural?, Number.integer?, Number.isInteger, Number.truncated?, Number.zero,
    Number.signedUnits]

theorem toOption_walk (g : Graph) (limit v w : Number) (c : Closure) (f : Frontier) :
    (g.walk limit v c f).toOption = (g.walk limit w c f).toOption := by
  fun_induction g.walk limit v c f with
  | case1 c f hq =>
      obtain ⟨queue, met⟩ := f
      obtain rfl : queue = [] := hq
      rw [walk]
  | case2 c f n rest hq hover =>
      obtain ⟨queue, met⟩ := f
      obtain rfl : queue = n :: rest := hq
      rw [walk_cons, if_pos hover]
      rfl
  | case3 c f n rest hq hpaid p hmeet =>
      obtain ⟨queue, met⟩ := f
      obtain rfl : queue = n :: rest := hq
      rw [walk_cons, if_neg hpaid, hmeet]
      rfl
  | case4 c f n rest hq hpaid f' hmeet ih =>
      obtain ⟨queue, met⟩ := f
      obtain rfl : queue = n :: rest := hq
      rw [walk_cons, if_neg hpaid, hmeet]
      exact ih

theorem toOption_closure (h : g.resolve? v = g.resolve? w) :
    (g.closure limit v).toOption = (g.closure limit w).toOption := by
  unfold closure
  rw [h]
  cases g.resolve? w with
  | none => rfl
  | some n => exact toOption_walk g limit v w _ _

end Graph

namespace ClosureEngine

variable {g : Graph} {e : ClosureEngine} {limit : Number}

def after (e : ClosureEngine) (g : Graph) (asked : List Number) : ClosureEngine :=
  asked.foldl (fun e value => (e.ask g value).2) e

structure Truthful (e : ClosureEngine) (g : Graph) (limit : Number) : Prop where
  limited : e.limit = limit
  answers : ∀ value answer, e.memo.lookup value.key = some answer →
    answer.toOption = (g.closure limit value).toOption

theorem Truthful.answer (h : e.Truthful g limit) (value : Number) :
    (e.ask g value).1.toOption = (g.closure limit value).toOption := by
  unfold ask
  cases hmemo : e.memo.lookup value.key with
  | some answer => exact h.answers value answer hmemo
  | none => rw [h.limited]

theorem Truthful.ask (h : e.Truthful g limit) (value : Number) :
    (e.ask g value).2.Truthful g limit := by
  unfold ClosureEngine.ask
  cases hmemo : e.memo.lookup value.key with
  | some answer => exact h
  | none =>
      refine ⟨h.limited, fun other answer hother => ?_⟩
      simp only [List.lookup_cons] at hother
      split at hother
      · -- values under one key, the two zeros, are one value to the graph
        rename_i hkey
        cases hother
        rw [h.limited]
        refine Graph.toOption_closure ?_
        rw [← Graph.resolve?_key, ← Graph.resolve?_key g other, beq_iff_eq.1 hkey]
      · exact h.answers other answer hother

theorem Truthful.after (h : e.Truthful g limit) (asked : List Number) :
    (e.after g asked).Truthful g limit := by
  induction asked generalizing e with
  | nil => exact h
  | cons value asked ih => exact ih (h.ask value)

theorem ask_after (g : Graph) (limit : Number) (asked : List Number) (value : Number) :
    (((new limit).after g asked).ask g value).1.toOption = (g.closure limit value).toOption := by
  have hnew : (new limit).Truthful g limit := ⟨rfl, fun _ _ h => by cases h⟩
  exact (hnew.after asked).answer value

end ClosureEngine

end ToolGate
