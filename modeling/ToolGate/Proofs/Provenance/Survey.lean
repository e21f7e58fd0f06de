import Mathlib.Logic.Relation
import ToolGate.Proofs.Label.Join
import ToolGate.Proofs.Provenance.Growth
import ToolGate.Provenance.Closure

namespace ToolGate.Graph

variable {g : Graph}

def IsParent (g : Graph) (a b : Nat) : Prop :=
  ∃ n, g.get? a = some n ∧ b ∈ n.parents

def Ancestor (g : Graph) : Nat → Nat → Prop :=
  Relation.ReflTransGen g.IsParent

structure Survey (g : Graph) (root : Nat) (seen : List Node) (f : Frontier) : Prop where
  stored : ∀ n ∈ seen ++ f.queue, g.get? n.id = some n
  met : ∀ p, p ∈ f.met ↔ ∃ n ∈ seen ++ f.queue, n.id = p
  distinct : ((seen ++ f.queue).map Node.id).Nodup
  above : ∀ n ∈ seen ++ f.queue, g.Ancestor root n.id
  start : root ∈ f.met

theorem Survey.init {n : Node} (hn : g.get? n.id = some n) :
    Survey g n.id [] ⟨[n], [n.id]⟩ where
  stored := by simpa using hn
  met := by simp [eq_comm]
  distinct := by simp
  above := by
    intro m hm
    rw [show m = n by simpa using hm]
    exact Relation.ReflTransGen.refl
  start := by simp

theorem Survey.take {root : Nat} {seen rest : List Node} {met : List Nat} {n : Node}
    (h : Survey g root seen ⟨n :: rest, met⟩) : Survey g root (seen ++ [n]) ⟨rest, met⟩ where
  stored := by simpa using h.stored
  met := by simpa using h.met
  distinct := by simpa using h.distinct
  above := by simpa using h.above
  start := h.start

theorem Survey.lineUp {root p : Nat} {seen : List Node} {f : Frontier} {n : Node}
    (h : Survey g root seen f) (hp : p ∉ f.met) (hn : g.get? p = some n)
    (habove : g.Ancestor root p) : Survey g root seen ⟨f.queue ++ [n], p :: f.met⟩ := by
  have hid : n.id = p := (get?_some hn).2
  subst hid
  have hnew : n.id ∉ (seen ++ f.queue).map Node.id := by
    intro hmem
    obtain ⟨m, hm, heq⟩ := List.mem_map.1 hmem
    exact hp ((h.met _).2 ⟨m, hm, heq⟩)
  have hmem (m : Node) : m ∈ seen ++ (f.queue ++ [n]) ↔ m ∈ seen ++ f.queue ∨ m = n := by
    simp [or_assoc]
  refine ⟨?_, ?_, ?_, ?_, List.mem_cons_of_mem _ h.start⟩
  · intro m hm
    rcases (hmem m).1 hm with hm | rfl
    · exact h.stored m hm
    · exact hn
  · intro q
    simp only [hmem, List.mem_cons, h.met q]
    grind
  · rw [← List.append_assoc, List.map_append, List.nodup_append]
    refine ⟨h.distinct, by simp, ?_⟩
    rintro a ha b hb rfl
    simp only [List.map_cons, List.map_nil, List.mem_singleton] at hb
    exact hnew (hb ▸ ha)
  · intro m hm
    rcases (hmem m).1 hm with hm | rfl
    · exact h.above m hm
    · exact habove

theorem Survey.meet {root : Nat} {seen : List Node} {ps : List Nat} {f f' : Frontier}
    (h : Survey g root seen f) (hps : ∀ p ∈ ps, g.Ancestor root p) (hf : g.meet ps f = .ok f') :
    Survey g root seen f' ∧ (∀ p ∈ f.met, p ∈ f'.met) ∧ ∀ p ∈ ps, p ∈ f'.met := by
  induction ps generalizing f with
  | nil =>
      cases hf
      exact ⟨h, fun _ hp => hp, by simp⟩
  | cons p ps ih =>
      have hrest : ∀ q ∈ ps, g.Ancestor root q := fun q hq => hps q (List.mem_cons_of_mem _ hq)
      rw [Graph.meet] at hf
      split at hf
      · rename_i hp
        obtain ⟨hs, hkept, hall⟩ := ih h hrest hf
        exact ⟨hs, hkept, List.forall_mem_cons.2 ⟨hkept p hp, hall⟩⟩
      · rename_i hp
        split at hf
        · cases hf
        · rename_i n hn
          have hnext := h.lineUp hp hn (hps p List.mem_cons_self)
          obtain ⟨hs, hkept, hall⟩ := ih hnext hrest hf
          exact ⟨hs, fun q hq => hkept q (List.mem_cons_of_mem _ hq),
            List.forall_mem_cons.2 ⟨hkept p List.mem_cons_self, hall⟩⟩

theorem meet_error {ps : List Nat} {f : Frontier} {p : Nat} (h : g.meet ps f = .error p) :
    p ∈ ps ∧ g.get? p = none := by
  induction ps generalizing f with
  | nil => cases h
  | cons q ps ih =>
      rw [Graph.meet] at h
      split at h
      · exact ⟨List.mem_cons_of_mem _ (ih h).1, (ih h).2⟩
      · split at h
        · rename_i hq
          cases h
          exact ⟨List.mem_cons_self, hq⟩
        · exact ⟨List.mem_cons_of_mem _ (ih h).1, (ih h).2⟩

inductive Ending (g : Graph) (limit value : Number) (first : Node) : ClosureResult → Prop
  | whole {seen met} : Survey g first.id seen ⟨[], met⟩ →
      (∀ n ∈ seen, ∀ p ∈ n.parents, p ∈ met) → (∀ k < seen.length, ¬limit.leNat k) →
      Ending g limit value first (.ok ⟨first.label.joinAll (seen.map Node.label), seen.length⟩)
  | short {seen f} : Survey g first.id seen f → f.queue ≠ [] → limit.leNat seen.length →
      Ending g limit value first (.error (.overBudget value limit))
  | broken {p} : g.Ancestor first.id p → g.get? p = none →
      Ending g limit value first (.error (.missingAncestor p value))

-- The values seen so far are carried along; their count is what the steps of the closure say.
theorem ending_walk {limit value : Number} {first : Node} {c : Closure} {f : Frontier}
    {seen : List Node} (h : Survey g first.id seen f)
    (closed : ∀ n ∈ seen, ∀ p ∈ n.parents, p ∈ f.met) (paid : ∀ k < seen.length, ¬limit.leNat k)
    (hc : c = ⟨first.label.joinAll (seen.map Node.label), seen.length⟩) :
    Ending g limit value first (g.walk limit value c f) := by
  fun_induction g.walk limit value c f generalizing seen with
  | case1 c f hq =>
      obtain ⟨queue, met⟩ := f
      cases hq
      exact hc ▸ .whole h closed paid
  | case2 c f n rest hq hlimit =>
      exact .short h (by simp [hq]) (by simpa [hc] using hlimit)
  | case3 c f n rest hq hlimit p hp =>
      obtain ⟨queue, met⟩ := f
      cases hq
      obtain ⟨hmem, hnone⟩ := meet_error hp
      have hn : n ∈ seen ++ n :: rest := by simp
      exact .broken ((h.above n hn).tail ⟨n, h.stored n hn, hmem⟩) hnone
  | case4 c f n rest hq hlimit f' hf' ih =>
      obtain ⟨queue, met⟩ := f
      cases hq
      have hn : n ∈ seen ++ n :: rest := by simp
      have hparents : ∀ p ∈ n.parents, g.Ancestor first.id p := fun p hp =>
        (h.above n hn).tail ⟨n, h.stored n hn, hp⟩
      obtain ⟨hs, hkept, hall⟩ := h.take.meet hparents hf'
      subst hc
      refine ih hs ?_ ?_ ?_
      · intro m hm p hp
        rcases List.mem_append.1 hm with hm | hm
        · exact hkept p (closed m hm p hp)
        · rw [List.mem_singleton.1 hm] at hp
          exact hall p hp
      · intro k hk
        rw [List.length_append, List.length_singleton] at hk
        rcases Nat.lt_succ_iff_lt_or_eq.1 hk with hk | rfl
        · exact paid k hk
        · simpa using hlimit
      · simp [Label.joinAll_append]

theorem ending_closure {limit value : Number} {n : Node} (hn : g.resolve? value = some n) :
    Ending g limit value n (g.closure limit value) := by
  rw [closure, hn]
  exact ending_walk (Survey.init (resolve?_some hn)) (by simp) (by simp) (by simp [Label.joinAll])

theorem closure_unknown {limit value : Number} (h : g.resolve? value = none) :
    g.closure limit value = .error (.unknownValue value) := by
  rw [closure, h]

theorem resolve?_of_closure {limit value : Number} {c : Closure}
    (h : g.closure limit value = .ok c) : ∃ n, g.resolve? value = some n := by
  cases hn : g.resolve? value with
  | none =>
      rw [closure_unknown hn] at h
      cases h
  | some n => exact ⟨n, rfl⟩

theorem Survey.complete {root : Nat} {seen : List Node} {met : List Nat}
    (h : Survey g root seen ⟨[], met⟩) (closed : ∀ n ∈ seen, ∀ p ∈ n.parents, p ∈ met) {a : Nat}
    (ha : g.Ancestor root a) : ∃ n ∈ seen, n.id = a := by
  have hmet (p : Nat) : p ∈ met ↔ ∃ n ∈ seen, n.id = p := by simpa using h.met p
  induction ha with
  | refl => exact (hmet root).1 h.start
  | tail _ hstep ih =>
      obtain ⟨n, hn, rfl⟩ := ih
      obtain ⟨m, hm, hp⟩ := hstep
      have hsame : g.get? n.id = some n := h.stored n (by simpa using hn)
      cases hsame.symm.trans hm
      exact (hmet _).1 (closed n hn _ hp)

end ToolGate.Graph
