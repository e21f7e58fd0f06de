import Mathlib.Data.List.Nodup
import ToolGate.Proofs.Steps
import ToolGate.Provenance.Graph

namespace ToolGate.Graph

inductive Reached : Graph → Prop
  | empty (budgets : GraphBudgets) : Reached (.empty budgets)
  | create {g g' seals v n} : Reached g → g.create seals v = .ok (n, g') → Reached g'
  | record {g g' seals id v n} : Reached g → g.insert seals id v = .ok (n, g') → Reached g'
  | reset {g} : Reached g → Reached g.reset

def proposal (n : Node) : Proposal :=
  ⟨n.mark, n.confidentiality, n.parents.map .ofNat, n.kind⟩

theorem Reached.add {g : Graph} (h : g.Reached) (n : Node)
    (hstep : g.create [] (proposal n) = .ok (n, ⟨g.budgets, n :: g.nodes⟩)) :
    Reached ⟨g.budgets, n :: g.nodes⟩ :=
  .create h hstep

inductive Layered : List Node → Prop
  | nil : Layered []
  | cons {n older} : (∀ m ∈ older, m.id < n.id) → n.parents.Nodup →
      (∀ p ∈ n.parents, ∃ m ∈ older, m.id = p) → Layered older → Layered (n :: older)

theorem get?_some {g : Graph} {id : Nat} {n : Node} (h : g.get? id = some n) :
    n ∈ g.nodes ∧ n.id = id :=
  ⟨List.mem_of_find?_eq_some h, by simpa using List.find?_some h⟩

theorem has_iff {g : Graph} {id : Nat} : g.has id ↔ ∃ n ∈ g.nodes, n.id = id := by
  simp [has, get?]

theorem has_of_get? {g : Graph} {id : Nat} {n : Node} (h : g.get? id = some n) : g.has id := by
  rw [has, h]
  rfl

theorem resolve?_some {g : Graph} {ref : Number} {n : Node} (h : g.resolve? ref = some n) :
    g.get? n.id = some n := by
  obtain ⟨i, -, hi⟩ := Option.bind_eq_some_iff.1 h
  rw [(get?_some hi).2, hi]

theorem newId_ok {g : Graph} {id : Number} {n : Nat} (h : g.newId id = .ok n) : g.last < n := by
  unfold newId at h
  split at h
  · split at h
    · cases h
      exact And.right ‹_›
    · cases h
  · cases h

theorem newParents_ok {g : Graph} {id : Nat} {refs : List Number} {seen ps : List Nat}
    (h : g.newParents id refs seen = .ok ps) (distinct : seen.Nodup)
    (stored : ∀ p ∈ seen, g.has p) : ps.Nodup ∧ ∀ p ∈ ps, g.has p := by
  induction refs generalizing seen with
  | nil =>
      cases h
      exact ⟨List.nodup_reverse.2 distinct, fun p hp => stored p (List.mem_reverse.1 hp)⟩
  | cons ref refs ih =>
      rw [newParents] at h
      split at h
      · cases h
      · rename_i m hm
        split at h
        · cases h
        · rename_i hnew
          have hstored : g.has m.id := has_of_get? (resolve?_some hm)
          refine ih h (List.nodup_cons.2 ⟨hnew, distinct⟩) ?_
          intro p hp
          rcases List.mem_cons.1 hp with rfl | hp
          · exact hstored
          · exact stored p hp

theorem insert_ok {g g' : Graph} {seals : Seals} {id : Number} {v : Proposal} {n : Node} :
    g.insert seals id v = .ok (n, g') ↔
      g.newId id = .ok n.id ∧ ¬g.budgets.values.leNat g.size ∧
      ¬g.budgets.parentsPerValue.ltNat v.parents.length ∧
      g.newParents n.id v.parents [] = .ok n.parents ∧ v.mark.admissible seals ∧
      n.mark = v.mark ∧ n.confidentiality = v.confidentiality ∧ n.kind = v.kind ∧
      g' = { g with nodes := n :: g.nodes } := by
  simp only [insert, bind_ok, guard_ok, pure_ok, Prod.mk.injEq]
  constructor
  · rintro ⟨i, hi, hsize, hcount, ps, hps, hmark, rfl, rfl⟩
    exact ⟨hi, hsize, hcount, hps, by simpa using hmark, rfl, rfl, rfl, rfl⟩
  · rintro ⟨hi, hsize, hcount, hps, hmark, hm, hc, hk, rfl⟩
    obtain ⟨i, mark, confidentiality, parents, kind⟩ := n
    subst hm hc hk
    exact ⟨i, hi, hsize, hcount, parents, hps, by simpa using hmark, rfl, rfl⟩

theorem Layered.le_last {g : Graph} (h : Layered g.nodes) : ∀ m ∈ g.nodes, m.id ≤ g.last := by
  unfold last
  generalize g.nodes = ns at h
  cases h with
  | nil => simp
  | cons hid _ _ _ =>
      intro m hm
      rcases List.mem_cons.1 hm with rfl | hm
      · simp
      · simpa using Nat.le_of_lt (hid m hm)

theorem Layered.insert {g g' : Graph} {seals : Seals} {id : Number} {v : Proposal} {n : Node}
    (hg : Layered g.nodes) (h : g.insert seals id v = .ok (n, g')) : Layered g'.nodes := by
  obtain ⟨hid, -, -, hps, -, -, -, -, rfl⟩ := insert_ok.1 h
  obtain ⟨distinct, stored⟩ := newParents_ok hps .nil (by simp)
  refine .cons (fun m hm => ?_) distinct (fun p hp => has_iff.1 (stored p hp)) hg
  exact Nat.lt_of_le_of_lt (hg.le_last m hm) (newId_ok hid)

theorem Reached.layered {g : Graph} (h : Reached g) : Layered g.nodes := by
  induction h with
  | empty => exact .nil
  | create _ hstep ih => exact ih.insert hstep
  | record _ hstep ih => exact ih.insert hstep
  | reset => exact .nil

theorem Layered.get? {g : Graph} (h : Layered g.nodes) {n : Node} (hn : n ∈ g.nodes) :
    g.get? n.id = some n := by
  unfold Graph.get?
  generalize g.nodes = ns at h hn
  induction h with
  | nil => cases hn
  | @cons m older hid _ _ _ ih =>
      rcases List.mem_cons.1 hn with rfl | hn
      · simp
      · rw [List.find?_cons_of_neg (by simpa using Nat.ne_of_gt (hid n hn)), ih hn]

theorem Layered.parent {ns : List Node} (h : Layered ns) {n : Node} (hn : n ∈ ns) :
    n.parents.Nodup ∧ ∀ p ∈ n.parents, p < n.id ∧ ∃ m ∈ ns, m.id = p := by
  induction h with
  | nil => cases hn
  | cons hid distinct older _ ih =>
      rcases List.mem_cons.1 hn with rfl | hn
      · refine ⟨distinct, fun p hp => ?_⟩
        obtain ⟨m, hm, rfl⟩ := older p hp
        exact ⟨hid m hm, m, List.mem_cons_of_mem _ hm, rfl⟩
      · refine ⟨(ih hn).1, fun p hp => ?_⟩
        obtain ⟨hlt, m, hm, rfl⟩ := (ih hn).2 p hp
        exact ⟨hlt, m, List.mem_cons_of_mem _ hm, rfl⟩

end ToolGate.Graph
