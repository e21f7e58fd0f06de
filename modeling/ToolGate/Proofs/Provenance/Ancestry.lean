import Mathlib.Data.Finset.Card
import ToolGate.Proofs.Number.Order
import ToolGate.Proofs.Provenance.Survey

namespace ToolGate.Graph

variable {g : Graph}

open Classical in
noncomputable def ancestry (g : Graph) (v : Nat) : Finset Node :=
  g.nodes.toFinset.filter fun n => g.Ancestor v n.id

theorem mem_ancestry {v : Nat} {n : Node} : n ∈ g.ancestry v ↔ n ∈ g.nodes ∧ g.Ancestor v n.id := by
  simp [ancestry]

theorem Layered.stored_ancestor (hg : Layered g.nodes) {v a : Nat} (hv : g.has v)
    (ha : g.Ancestor v a) : g.has a := by
  induction ha with
  | refl => exact hv
  | tail _ hstep _ =>
      obtain ⟨n, hn, hp⟩ := hstep
      exact has_iff.2 ((hg.parent (get?_some hn).1).2 _ hp).2

theorem Survey.mem_ancestry {root : Nat} {seen : List Node} {f : Frontier}
    (h : Survey g root seen f) {n : Node} (hn : n ∈ seen ++ f.queue) : n ∈ g.ancestry root :=
  Graph.mem_ancestry.2 ⟨(get?_some (h.stored n hn)).1, h.above n hn⟩

theorem Survey.length_le {root : Nat} {seen : List Node} {f : Frontier}
    (h : Survey g root seen f) : (seen ++ f.queue).length ≤ (g.ancestry root).card := by
  rw [← List.toFinset_card_of_nodup h.distinct.of_map]
  exact Finset.card_le_card fun n hn => h.mem_ancestry (List.mem_toFinset.1 hn)

theorem Survey.toFinset_eq (hg : Layered g.nodes) {root : Nat} {seen : List Node} {met : List Nat}
    (h : Survey g root seen ⟨[], met⟩) (closed : ∀ n ∈ seen, ∀ p ∈ n.parents, p ∈ met) :
    seen.toFinset = g.ancestry root := by
  ext n
  rw [List.mem_toFinset]
  constructor
  · intro hn
    exact h.mem_ancestry (by simpa using hn)
  · intro hn
    obtain ⟨hmem, habove⟩ := Graph.mem_ancestry.1 hn
    obtain ⟨m, hm, hid⟩ := h.complete closed habove
    have hsame : g.get? n.id = some m := hid ▸ h.stored m (by simpa using hm)
    cases hsame.symm.trans (hg.get? hmem)
    exact hm

/-- The label of the values in a set, `n` among them, as checks look at it. -/
structure Sums (n : Node) (s : Finset Node) (l : Label) : Prop where
  integrity : l.integrity =
    if ∀ m ∈ s, m.label.integrity = n.label.integrity then n.label.integrity else .untrusted
  satisfies : ∀ required, l.integrity.satisfies required ↔
    ∀ m ∈ s, m.label.integrity.satisfies required
  carries : ∀ tag, l.confidentiality.carries tag ↔ ∃ m ∈ s, m.confidentiality.carries tag

theorem sums_joinAll {n : Node} {ns : List Node} (hn : n ∈ ns) :
    Sums n ns.toFinset (n.label.joinAll (ns.map Node.label)) where
  integrity := by simp [Label.integrity_joinAll]
  satisfies := by
    intro required
    simp only [Label.satisfies_joinAll, List.forall_mem_map, List.mem_toFinset]
    exact and_iff_right_of_imp fun h => h n hn
  carries := by
    intro tag
    simp only [Label.carries_joinAll, List.mem_map, exists_exists_and_eq_and, List.mem_toFinset]
    exact or_iff_right_of_imp fun h => ⟨n, hn, h⟩

theorem Survey.root_mem {n : Node} {seen : List Node} {met : List Nat}
    (h : Survey g n.id seen ⟨[], met⟩) (closed : ∀ m ∈ seen, ∀ p ∈ m.parents, p ∈ met)
    (hn : g.get? n.id = some n) : n ∈ seen := by
  obtain ⟨m, hm, hid⟩ := h.complete closed Relation.ReflTransGen.refl
  have hsame : g.get? n.id = some m := hid ▸ h.stored m (by simpa using hm)
  cases hsame.symm.trans hn
  exact hm

theorem Layered.closure_ok (hg : Layered g.nodes) {limit value : Number} {n : Node} {c : Closure}
    (hn : g.resolve? value = some n) (hc : g.closure limit value = .ok c) :
    ∃ ns : List Node, n ∈ ns ∧ ns.Nodup ∧ ns.toFinset = g.ancestry n.id ∧
      c = ⟨n.label.joinAll (ns.map Node.label), ns.length⟩ := by
  have hend : Ending g limit value n (g.closure limit value) := ending_closure hn
  rw [hc] at hend
  cases hend with
  | @whole seen met hs closed paid =>
      have hdistinct : seen.Nodup := by simpa using hs.distinct.of_map
      exact ⟨seen, hs.root_mem closed (resolve?_some hn), hdistinct, hs.toFinset_eq hg closed, rfl⟩

theorem Layered.closure_sums (hg : Layered g.nodes) {limit value : Number} {n : Node} {c : Closure}
    (hn : g.resolve? value = some n) (hc : g.closure limit value = .ok c) :
    Sums n (g.ancestry n.id) c.label := by
  obtain ⟨ns, hroot, -, hset, rfl⟩ := hg.closure_ok hn hc
  exact hset ▸ sums_joinAll hroot

theorem Layered.closure_eq (hg : Layered g.nodes) {limit value : Number} {n : Node}
    (hlimit : limit.isInteger) (hn : g.resolve? value = some n) :
    (limit.ltNat (g.ancestry n.id).card ∧
        g.closure limit value = .error (.overBudget value limit)) ∨
      (¬limit.ltNat (g.ancestry n.id).card ∧
        ∃ l, g.closure limit value = .ok ⟨l, (g.ancestry n.id).card⟩ ∧
          Sums n (g.ancestry n.id) l) := by
  have hend : Ending g limit value n (g.closure limit value) := ending_closure hn
  generalize g.closure limit value = r at hend ⊢
  cases hend with
  | @whole seen met hs closed paid =>
      have hm := hs.root_mem closed (resolve?_some hn)
      have hset := hs.toFinset_eq hg closed
      have hcard : (g.ancestry n.id).card = seen.length := by
        rw [← hset, List.toFinset_card_of_nodup]
        simpa using hs.distinct.of_map
      refine .inr ⟨?_, _, by rw [hcard], hset ▸ sums_joinAll hm⟩
      rw [hcard]
      cases seen with
      | nil => cases hm
      | cons a as =>
          intro hover
          exact paid as.length (by simp) (Number.leNat_of_ltNat_succ hlimit hover)
  | @short seen f hs hqueue hover =>
      have hle := hs.length_le
      have hpos := List.length_pos_iff.2 hqueue
      rw [List.length_append] at hle
      exact .inl ⟨Number.ltNat_of_leNat hover (by omega), rfl⟩
  | broken habove hmissing =>
      have hroot := has_of_get? (resolve?_some hn)
      have hstored := hg.stored_ancestor hroot habove
      rw [has, hmissing] at hstored
      cases hstored

end ToolGate.Graph
