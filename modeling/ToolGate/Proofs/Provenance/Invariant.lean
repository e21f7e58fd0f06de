import ToolGate.Proofs.Number.Order
import ToolGate.Proofs.Provenance.Survey

namespace ToolGate.Graph

inductive Call where
  | create (seals : Seals) (v : Proposal)
  | record (seals : Seals) (id : Number) (v : Proposal)
  | reset

def settle (g : Graph) : Except GraphFault (Node × Graph) → Except GraphFault (Option Node) × Graph
  | .error f => (.error f, g)
  | .ok (n, g') => (.ok (some n), g')

def call (g : Graph) : Call → Except GraphFault (Option Node) × Graph
  | .create seals v => g.settle (g.create seals v)
  | .record seals id v => g.settle (g.insert seals id v)
  | .reset => (.ok none, g.reset)

def run (g : Graph) (calls : List Call) : Graph :=
  calls.foldl (fun g c => (g.call c).2) g

structure Invariant (maxValues maxParents : Nat) (g : Graph) : Prop where
  positive : ∀ n ∈ g.nodes, 0 < n.id
  rising : g.nodes.reverse.Pairwise (·.id < ·.id)
  distinct : ∀ n ∈ g.nodes, n.parents.Nodup
  older : ∀ n ∈ g.nodes, ∀ p ∈ n.parents, p < n.id ∧ g.has p
  acyclic : ∀ a, ¬Relation.TransGen g.IsParent a a
  parents : ∀ n ∈ g.nodes, n.parents.length ≤ maxParents
  values : g.size ≤ maxValues

variable {g g' : Graph} {seals : Seals} {id : Number} {v : Proposal} {n : Node} {c : Call}
  {budgets : GraphBudgets} {maxValues maxParents : Nat}

theorem length_newParents {i : Nat} {refs : List Number} {seen ps : List Nat}
    (h : g.newParents i refs seen = .ok ps) : ps.length = refs.length + seen.length := by
  induction refs generalizing seen with
  | nil =>
      cases h
      simp
  | cons ref refs ih =>
      rw [newParents] at h
      split at h
      · cases h
      · split at h
        · cases h
        · have hlength := ih h
          simp only [List.length_cons] at hlength ⊢
          omega

structure Within (g : Graph) : Prop where
  positive : ∀ n ∈ g.nodes, 0 < n.id
  parents : ∀ n ∈ g.nodes, ¬g.budgets.parentsPerValue.ltNat n.parents.length
  values : ∀ k < g.size, ¬g.budgets.values.leNat k

theorem Within.insert (hg : g.Within) (h : g.insert seals id v = .ok (n, g')) : g'.Within := by
  obtain ⟨hid, hsize, hcount, hps, -, -, -, -, rfl⟩ := insert_ok.1 h
  refine ⟨List.forall_mem_cons.2 ⟨?_, hg.positive⟩, List.forall_mem_cons.2 ⟨?_, hg.parents⟩, ?_⟩
  · exact Nat.lt_of_le_of_lt (Nat.zero_le _) (newId_ok hid)
  · have hlength : n.parents.length = v.parents.length := by simpa using length_newParents hps
    rw [hlength]
    exact hcount
  · intro k hk
    rcases Nat.lt_succ_iff_lt_or_eq.1 hk with hk | rfl
    · exact hg.values k hk
    · exact hsize

theorem Reached.within (h : Reached g) : g.Within := by
  induction h with
  | empty => exact ⟨by simp [Graph.empty], by simp [Graph.empty], by simp [Graph.empty, size]⟩
  | create _ hstep ih => exact ih.insert hstep
  | record _ hstep ih => exact ih.insert hstep
  | reset => exact ⟨by simp [Graph.reset], by simp [Graph.reset], by simp [Graph.reset, size]⟩

theorem Layered.rising {ns : List Node} (h : Layered ns) : ns.reverse.Pairwise (·.id < ·.id) := by
  rw [List.pairwise_reverse]
  induction h with
  | nil => exact .nil
  | cons hid _ _ _ ih => exact .cons hid ih

theorem Layered.isParent_lt (hg : Layered g.nodes) {a b : Nat} (h : g.IsParent a b) : b < a := by
  obtain ⟨n, hn, hb⟩ := h
  obtain ⟨hmem, rfl⟩ := get?_some hn
  exact ((hg.parent hmem).2 b hb).1

theorem Layered.acyclic (hg : Layered g.nodes) (a : Nat) : ¬Relation.TransGen g.IsParent a a := by
  have hlt {b : Nat} (h : Relation.TransGen g.IsParent a b) : b < a := by
    induction h with
    | single hstep => exact hg.isParent_lt hstep
    | tail _ hstep ih => exact Nat.lt_trans (hg.isParent_lt hstep) ih
  exact fun h => Nat.lt_irrefl a (hlt h)

theorem Reached.invariant (h : Reached g) (hvalues : g.budgets.values.natural? = some maxValues)
    (hparents : g.budgets.parentsPerValue.natural? = some maxParents) :
    g.Invariant maxValues maxParents where
  positive := h.within.positive
  rising := h.layered.rising
  distinct := fun _ hn => (h.layered.parent hn).1
  older := by
    intro n hn p hp
    obtain ⟨hlt, hstored⟩ := (h.layered.parent hn).2 p hp
    exact ⟨hlt, has_iff.2 hstored⟩
  acyclic := h.layered.acyclic
  parents := by
    intro n hn
    have hcount := h.within.parents n hn
    rw [Number.ltNat_iff hparents] at hcount
    exact Nat.not_lt.1 hcount
  values := by
    by_contra hover
    have hfull : g.budgets.values.leNat maxValues := (Number.leNat_iff hvalues).2 (Nat.le_refl _)
    exact h.within.values maxValues (Nat.not_le.1 hover) hfull

theorem settle_cases (g : Graph) (answer : Except GraphFault (Node × Graph)) :
    (∃ f, g.settle answer = (.error f, g)) ∨
      ∃ n g', answer = .ok (n, g') ∧ g.settle answer = (.ok (some n), g') := by
  cases answer with
  | error f => exact .inl ⟨f, rfl⟩
  | ok added => exact .inr ⟨added.1, added.2, rfl, rfl⟩

theorem call_cases (g : Graph) (c : Call) :
    (∃ f, g.call c = (.error f, g)) ∨
      (∃ seals id v n g', g.insert seals id v = .ok (n, g') ∧ g.call c = (.ok (some n), g')) ∨
      (c = .reset ∧ g.call c = (.ok none, g.reset)) := by
  cases c with
  | create seals v =>
      rcases settle_cases g (g.create seals v) with hfault | ⟨n, g', hstep, hcall⟩
      · exact .inl hfault
      · exact .inr (.inl ⟨seals, _, v, n, g', hstep, hcall⟩)
  | record seals id v =>
      rcases settle_cases g (g.insert seals id v) with hfault | ⟨n, g', hstep, hcall⟩
      · exact .inl hfault
      · exact .inr (.inl ⟨seals, id, v, n, g', hstep, hcall⟩)
  | reset => exact .inr (.inr ⟨rfl, rfl⟩)

theorem Reached.call (h : Reached g) (c : Call) :
    Reached (g.call c).2 ∧ (g.call c).2.budgets = g.budgets := by
  rcases call_cases g c with ⟨f, hcall⟩ | ⟨seals, id, v, n, g', hstep, hcall⟩ | ⟨-, hcall⟩
  · rw [hcall]
    exact ⟨h, rfl⟩
  · rw [hcall]
    refine ⟨h.record hstep, ?_⟩
    obtain ⟨-, -, -, -, -, -, -, -, rfl⟩ := insert_ok.1 hstep
    rfl
  · rw [hcall]
    exact ⟨h.reset, rfl⟩

theorem Reached.run (h : Reached g) (calls : List Call) :
    Reached (g.run calls) ∧ (g.run calls).budgets = g.budgets := by
  induction calls generalizing g with
  | nil => exact ⟨h, rfl⟩
  | cons c calls ih =>
      obtain ⟨hnext, hbudgets⟩ := h.call c
      obtain ⟨hlast, hsame⟩ := ih hnext
      exact ⟨hlast, hsame.trans hbudgets⟩

theorem Layered.get?_insert (hg : Layered g.nodes) (h : g.insert seals id v = .ok (n, g')) {i : Nat}
    {m : Node} (hm : g.get? i = some m) : g'.get? i = some m := by
  obtain ⟨hid, -, -, -, -, -, -, -, rfl⟩ := insert_ok.1 h
  obtain ⟨hmem, rfl⟩ := get?_some hm
  -- the new ID is above all stored ones
  have hnew : n.id ≠ m.id := Nat.ne_of_gt (Nat.lt_of_le_of_lt (hg.le_last m hmem) (newId_ok hid))
  rw [Graph.get?, List.find?_cons_of_neg (by simpa using hnew)]
  exact hm

theorem Reached.get?_call (h : Reached g) (hc : c ≠ .reset) {i : Nat} (hn : g.get? i = some n) :
    (g.call c).2.get? i = some n := by
  rcases call_cases g c with ⟨f, hcall⟩ | ⟨seals, id, v, m, g', hstep, hcall⟩ | ⟨hreset, -⟩
  · rw [hcall]
    exact hn
  · rw [hcall]
    exact h.layered.get?_insert hstep hn
  · exact absurd hreset hc

theorem Reached.get?_run (h : Reached g) {calls : List Call} (hcalls : ∀ c ∈ calls, c ≠ .reset)
    {i : Nat} (hn : g.get? i = some n) : (g.run calls).get? i = some n := by
  induction calls generalizing g with
  | nil => exact hn
  | cons c calls ih =>
      obtain ⟨hc, hcalls⟩ := List.forall_mem_cons.1 hcalls
      exact ih (h.call c).1 hcalls (h.get?_call hc hn)

theorem call_error {f : GraphFault} (h : (g.call c).1 = .error f) : (g.call c).2 = g := by
  rcases call_cases g c with ⟨_, hcall⟩ | ⟨_, _, _, _, _, -, hcall⟩ | ⟨-, hcall⟩
  · rw [hcall]
  · rw [hcall] at h
    cases h
  · rw [hcall] at h
    cases h

theorem run_append (g : Graph) (calls more : List Call) :
    g.run (calls ++ more) = (g.run calls).run more :=
  List.foldl_append

theorem invariant_of_calls (hvalues : budgets.values.natural? = some maxValues)
    (hparents : budgets.parentsPerValue.natural? = some maxParents) (calls : List Call) :
    ((empty budgets).run calls).Invariant maxValues maxParents ∧
      (∀ later, (∀ c ∈ later, c ≠ .reset) → ∀ i n, ((empty budgets).run calls).get? i = some n →
        ((empty budgets).run (calls ++ later)).get? i = some n) ∧
      ∀ c f, (((empty budgets).run calls).call c).1 = .error f →
        (((empty budgets).run calls).call c).2 = (empty budgets).run calls := by
  obtain ⟨hreached, hbudgets⟩ := (Reached.empty budgets).run calls
  refine ⟨hreached.invariant ?_ ?_, fun later hlater i n hn => ?_, fun c f => call_error⟩
  · rw [hbudgets]
    exact hvalues
  · rw [hbudgets]
    exact hparents
  · rw [run_append]
    exact hreached.get?_run hlater hn

namespace Crowded

def small : GraphBudgets := ⟨3, 2⟩

def literal (parents : List Number) : Proposal :=
  ⟨.plain .trusted, .ofTags [] false, parents, literalKind⟩

def calls : List Call :=
  [.create [] (literal []), .create [] (literal [7]), .record [] 5 (literal [1]),
    .record [] 9 (literal [5, 5]), .create [] (literal [5, 1])]

def extra : Call := .record [] 9 (literal [])

def page : Node := ⟨5, .plain .trusted, .ofTags [] false, [1], literalKind⟩

end Crowded

open Crowded in
theorem invariant_of_crowded :
    ((empty small).run calls).Invariant 3 2 ∧
      ((empty small).run (calls ++ [extra])).get? 5 = some page ∧
      (((empty small).run calls).call extra).1 = .error (.full 9 3) ∧
      (((empty small).run calls).call extra).2 = (empty small).run calls := by
  have hvalues : small.values.natural? = some 3 := by decide +kernel
  have hparents : small.parentsPerValue.natural? = some 2 := by decide +kernel
  have hpage : ((empty small).run calls).get? 5 = some page := by decide +kernel
  have hfull : (((empty small).run calls).call extra).1 = .error (.full 9 3) := by decide +kernel
  obtain ⟨hinvariant, hkept, hfailed⟩ := invariant_of_calls hvalues hparents calls
  refine ⟨hinvariant, hkept [extra] ?_ 5 page hpage, hfull, hfailed extra _ hfull⟩
  simp [extra]

end ToolGate.Graph
