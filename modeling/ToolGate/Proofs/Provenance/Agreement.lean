import ToolGate.Proofs.Provenance.Unfolding
import ToolGate.Provenance.Witness

namespace ToolGate.Graph

variable {g h : Graph} {maxDepth limit value : Number}

def SharesAbove (g h : Graph) (root : Nat) : Prop :=
  ∀ a, g.Ancestor root a → h.get? a = g.get? a

structure AgreesOn (g h : Graph) (value : Number) : Prop where
  unknown : h.resolve? value = none ↔ g.resolve? value = none
  shared : ∀ n, g.resolve? value = some n → g.SharesAbove h n.id

theorem SharesAbove.parent {n : Node} (hs : g.SharesAbove h n.id) (hn : g.get? n.id = some n)
    {p : Nat} (hp : p ∈ n.parents) : g.SharesAbove h p :=
  fun _ ha => hs _ (.head ⟨n, hn, hp⟩ ha)

theorem AgreesOn.resolve? (hg : g.AgreesOn h value) : h.resolve? value = g.resolve? value := by
  cases hn : g.resolve? value with
  | none => exact hg.unknown.2 hn
  | some n =>
      obtain ⟨i, hi, hget⟩ := Option.bind_eq_some_iff.1 hn
      obtain rfl := (get?_some hget).2
      rw [Graph.resolve?, hi, Option.bind_some, hg.shared n hn _ .refl, hget]

theorem meet_congr {ps : List Nat} (hps : ∀ p ∈ ps, h.get? p = g.get? p) (f : Frontier) :
    h.meet ps f = g.meet ps f := by
  induction ps generalizing f with
  | nil => rfl
  | cons p ps ih =>
      obtain ⟨hp, hps⟩ := List.forall_mem_cons.1 hps
      simp only [meet, hp, ih hps]

theorem walk_cons (g : Graph) (limit value : Number) (c : Closure) (n : Node) (rest : List Node)
    (met : List Nat) :
    g.walk limit value c ⟨n :: rest, met⟩ =
      if limit.leNat c.steps then .error (.overBudget value limit)
      else match g.meet n.parents ⟨rest, met⟩ with
        | .error p => .error (.missingAncestor p value)
        | .ok f => g.walk limit value ⟨c.label.join n.label, c.steps + 1⟩ f := by
  rw [walk]
  dsimp only
  split
  · rfl
  · split <;> simp only [*]

theorem walk_congr {root : Nat} (hs : g.SharesAbove h root) {c : Closure} {f : Frontier}
    {seen : List Node} (hf : Survey g root seen f) :
    h.walk limit value c f = g.walk limit value c f := by
  induction hwork : g.work f using Nat.strongRecOn generalizing c f seen with
  | ind work ih =>
      subst hwork
      obtain ⟨queue, met⟩ := f
      cases queue with
      | nil => rw [walk, walk]
      | cons n rest =>
          -- whatever is lined up comes from the root, and so do its parents
          have hn : n ∈ seen ++ n :: rest := by simp
          have hparents : ∀ p ∈ n.parents, g.Ancestor root p := fun p hp =>
            (hf.above n hn).tail ⟨n, hf.stored n hn, hp⟩
          rw [walk_cons, walk_cons, meet_congr fun p hp => hs p (hparents p hp)]
          cases hmeet : g.meet n.parents ⟨rest, met⟩ with
          | error p => rfl
          | ok f =>
              have hless : g.work f < g.work ⟨n :: rest, met⟩ := by
                have := work_meet hmeet
                simp only [work, List.length_cons] at *
                omega
              simp only [ih _ hless (hf.take.meet hparents hmeet).1 rfl]

theorem closure_congr (hg : g.AgreesOn h value) :
    h.closure limit value = g.closure limit value := by
  rw [closure, closure, hg.resolve?]
  cases hn : g.resolve? value with
  | none => rfl
  | some n => exact walk_congr (hg.shared n hn) (Survey.init (resolve?_some hn))

theorem Unfolds.unique {depth : Nat} {expanded ids after after' : List Nat} {ts ts' : List Trace}
    (hg : g.Unfolds maxDepth depth expanded ids ts after)
    (hg' : g.Unfolds maxDepth depth expanded ids ts' after') : ts' = ts ∧ after' = after := by
  induction hg generalizing ts' after' with
  | nil =>
      cases hg'
      exact ⟨rfl, rfl⟩
  | missing hp _ ih =>
      cases hg' with
      | missing _ hrest => exact ih hrest
      | shut hn => cases hp.symm.trans hn
      | opened hn => cases hp.symm.trans hn
  | shut hn hcut _ ih =>
      cases hg' with
      | missing hp => cases hp.symm.trans hn
      | shut hn' hcut' hrest =>
          cases hn.symm.trans hn'
          cases hcut.symm.trans hcut'
          obtain ⟨rfl, rfl⟩ := ih hrest
          exact ⟨rfl, rfl⟩
      | opened hn' hopen =>
          cases hn.symm.trans hn'
          cases hcut.symm.trans hopen
  | opened hn hopen _ _ ihParents ih =>
      cases hg' with
      | missing hp => cases hp.symm.trans hn
      | shut hn' hcut =>
          cases hn.symm.trans hn'
          cases hopen.symm.trans hcut
      | opened hn' _ hparents hrest =>
          cases hn.symm.trans hn'
          obtain ⟨rfl, rfl⟩ := ihParents hparents
          obtain ⟨rfl, rfl⟩ := ih hrest
          exact ⟨rfl, rfl⟩

theorem Unfolds.shared {depth : Nat} {expanded ids after : List Nat} {ts : List Trace}
    (hg : g.Unfolds maxDepth depth expanded ids ts after) (hs : ∀ p ∈ ids, g.SharesAbove h p) :
    h.Unfolds maxDepth depth expanded ids ts after := by
  induction hg with
  | nil => exact .nil
  | missing hp _ ih =>
      obtain ⟨hhead, htail⟩ := List.forall_mem_cons.1 hs
      exact .missing ((hhead _ .refl).trans hp) (ih htail)
  | shut hn hcut _ ih =>
      obtain ⟨hhead, htail⟩ := List.forall_mem_cons.1 hs
      exact .shut ((hhead _ .refl).trans hn) hcut (ih htail)
  | opened hn hopen _ _ ihParents ih =>
      obtain ⟨hhead, htail⟩ := List.forall_mem_cons.1 hs
      obtain rfl := (get?_some hn).2
      exact .opened ((hhead _ .refl).trans hn) hopen (ihParents fun p hp => hhead.parent hn hp)
        (ih htail)

theorem trace_congr {n : Node} (hs : g.SharesAbove h n.id) (hn : g.get? n.id = some n)
    (expanded : List Nat) : h.trace maxDepth n expanded = g.trace maxDepth n expanded := by
  have hn' : h.get? n.id = some n := (hs n.id .refl).trans hn
  have hshared := (trace_unfolds maxDepth hn expanded).shared (h := h) (by simpa using hs)
  obtain ⟨htrace, hafter⟩ := hshared.unique (trace_unfolds maxDepth hn' expanded)
  exact Prod.ext (List.cons.inj htrace).1 hafter

theorem exhibits_congr {roots : List Root} (hg : ∀ r ∈ roots, g.AgreesOn h r.value)
    (expanded : List Nat) :
    h.exhibits maxDepth roots expanded = g.exhibits maxDepth roots expanded := by
  induction roots generalizing expanded with
  | nil => rfl
  | cons r rs ih =>
      obtain ⟨hr, hrs⟩ := List.forall_mem_cons.1 hg
      rw [exhibits, exhibits, hr.resolve?]
      cases hn : g.resolve? r.value with
      | none => simp only [ih hrs]
      | some n => simp only [trace_congr (hr.shared n hn) (resolve?_some hn), ih hrs]

theorem witness_congr {roots : List Root} (hg : ∀ r ∈ roots, g.AgreesOn h r.value) :
    h.witness maxDepth roots = g.witness maxDepth roots := by
  rw [witness, witness, exhibits_congr hg]

end ToolGate.Graph
