import ToolGate.Proofs.Provenance.Ancestry
import ToolGate.Provenance.Trace

namespace ToolGate

namespace Trace

def cutAt (maxDepth : Number) (depth : Nat) (expanded : List Nat) (n : Node) : Option Cut :=
  if n.id ∈ expanded then some .repeated
  else if !n.parents.isEmpty && maxDepth.leNat depth then some .truncated
  else none

mutual

def sights : Trace → List (Node × Option Cut)
  | .node value cut parents => (value, cut) :: sightsOfAll parents

def sightsOfAll : List Trace → List (Node × Option Cut)
  | [] => []
  | t :: ts => sights t ++ sightsOfAll ts

end

theorem sightsOfAll_cons (n : Node) (cut : Option Cut) (us ts : List Trace) :
    sightsOfAll (.node n cut us :: ts) = (n, cut) :: (sightsOfAll us ++ sightsOfAll ts) := rfl

def Row.sight (r : Row) : Node × Option Cut := (r.value, r.cut)

mutual

theorem sight_rowsFrom (depth : Nat) (t : Trace) (rest : List Row) :
    (rowsFrom depth t rest).map Row.sight = t.sights ++ rest.map Row.sight := by
  match t with
  | .node value cut parents =>
      rw [rowsFrom, List.map_cons, sight_rowsOfAll (depth + 1) parents rest, sights,
        List.cons_append]
      rfl

theorem sight_rowsOfAll (depth : Nat) (ts : List Trace) (rest : List Row) :
    (rowsOfAll depth ts rest).map Row.sight = sightsOfAll ts ++ rest.map Row.sight := by
  match ts with
  | [] => rfl
  | t :: ts =>
      rw [rowsOfAll, sight_rowsFrom depth t, sight_rowsOfAll depth ts, sightsOfAll,
        List.append_assoc]

end

theorem sight_rows (t : Trace) : t.rows.map Row.sight = t.sights := by
  simpa [rows] using sight_rowsFrom 0 t []

theorem values_rows (t : Trace) : t.rows.map Row.value = t.sights.map Prod.fst := by
  rw [← sight_rows, List.map_map]
  rfl

end Trace

namespace Graph

open Trace (Walk Frame cutAt sightsOfAll)

variable {g : Graph} {maxDepth : Number}

/-- What the plain recursion shows for a list of references at a depth. The IDs expanded before it
and after it are carried through; a value that is not cut shows its parents one level down. -/
inductive Unfolds (g : Graph) (maxDepth : Number) :
    Nat → List Nat → List Nat → List Trace → List Nat → Prop
  | nil {depth expanded} : Unfolds g maxDepth depth expanded [] [] expanded
  | missing {depth expanded p ps ts after} : g.get? p = none →
      Unfolds g maxDepth depth expanded ps ts after →
      Unfolds g maxDepth depth expanded (p :: ps) ts after
  | shut {depth expanded p n cut ps ts after} : g.get? p = some n →
      cutAt maxDepth depth expanded n = some cut →
      Unfolds g maxDepth depth (expanded.insert n.id) ps ts after →
      Unfolds g maxDepth depth expanded (p :: ps) (.node n (some cut) [] :: ts) after
  | opened {depth expanded p n us between ps ts after} : g.get? p = some n →
      cutAt maxDepth depth expanded n = none →
      Unfolds g maxDepth (depth + 1) (expanded.insert n.id) n.parents us between →
      Unfolds g maxDepth depth between ps ts after →
      Unfolds g maxDepth depth expanded (p :: ps) (.node n none us :: ts) after

theorem roomOf_le {before after : List Nat} (h : ∀ i ∈ before, i ∈ after) (ns : List Node) :
    roomOf after ns ≤ roomOf before ns := by
  induction ns with
  | nil => exact Nat.le_refl _
  | cons n ns ih => grind [roomOf]

theorem Unfolds.expanded_subset {depth : Nat} {expanded ids after : List Nat} {ts : List Trace}
    (h : g.Unfolds maxDepth depth expanded ids ts after) : ∀ i ∈ expanded, i ∈ after := by
  induction h with
  | nil => exact fun _ hi => hi
  | missing _ _ ih => exact ih
  | shut _ _ _ ih => exact fun i hi => ih i (List.mem_insert_of_mem hi)
  | opened _ _ _ _ ihParents ih =>
      exact fun i hi => ih i (ihParents i (List.mem_insert_of_mem hi))

theorem visit_shut {n : Node} {cut : Cut} {w : Walk}
    (h : cutAt maxDepth w.frames.length w.expanded n = some cut) :
    w.visit maxDepth n =
      Walk.attach (.node n (some cut) []) { w with expanded := w.expanded.insert n.id } := by
  unfold cutAt at h
  unfold Walk.visit
  split at h
  · rename_i hmem
    cases h
    rw [if_pos hmem, List.insert_of_mem hmem]
  · rename_i hnew
    split at h
    · rename_i hdeep
      cases h
      simp only [Bool.and_eq_true, Bool.not_eq_true'] at hdeep
      simp [hnew, hdeep.1, hdeep.2]
    · cases h

theorem visit_leaf {n : Node} {w : Walk} (hnew : n.id ∉ w.expanded) (hleaf : n.parents = []) :
    w.visit maxDepth n =
      Walk.attach (.node n none []) { w with expanded := w.expanded.insert n.id } := by
  simp [Walk.visit, hnew, hleaf]

theorem visit_opened {n : Node} {w : Walk}
    (h : cutAt maxDepth w.frames.length w.expanded n = none) (hinner : n.parents ≠ []) :
    w.visit maxDepth n =
      { w with frames := ⟨n, [], n.parents⟩ :: w.frames, expanded := w.expanded.insert n.id } := by
  unfold cutAt at h
  unfold Walk.visit
  split at h
  · cases h
  · rename_i hnew
    split at h
    · cases h
    · rename_i hshallow
      simp only [Bool.and_eq_true, Bool.not_eq_true', not_and] at hshallow
      simp [hnew, hinner, hshallow (by simpa using hinner)]

theorem runTrace_closed (g : Graph) (maxDepth : Number) (n : Node) (done : List Trace)
    (fs : List Frame) (finished : List Trace) (expanded : List Nat) :
    g.runTrace maxDepth ⟨⟨n, done, []⟩ :: fs, finished, expanded⟩ =
      g.runTrace maxDepth (Walk.attach (.node n none done.reverse) ⟨fs, finished, expanded⟩) := by
  rw [runTrace]

theorem runTrace_missing {p : Nat} (hp : g.get? p = none) (maxDepth : Number) (n : Node)
    (done : List Trace) (ps : List Nat) (fs : List Frame) (finished : List Trace)
    (expanded : List Nat) :
    g.runTrace maxDepth ⟨⟨n, done, p :: ps⟩ :: fs, finished, expanded⟩ =
      g.runTrace maxDepth ⟨⟨n, done, ps⟩ :: fs, finished, expanded⟩ := by
  rw [runTrace]
  dsimp only
  split
  · rfl
  · rename_i hn
    rw [hp] at hn
    cases hn

theorem runTrace_visit {p : Nat} {m : Node} (hm : g.get? p = some m) (maxDepth : Number) (n : Node)
    (done : List Trace) (ps : List Nat) (fs : List Frame) (finished : List Trace)
    (expanded : List Nat) :
    g.runTrace maxDepth ⟨⟨n, done, p :: ps⟩ :: fs, finished, expanded⟩ =
      g.runTrace maxDepth (Walk.visit maxDepth m ⟨⟨n, done, ps⟩ :: fs, finished, expanded⟩) := by
  rw [runTrace]
  dsimp only
  split
  · rename_i hnone
    rw [hm] at hnone
    cases hnone
  · rename_i hsome
    cases hm.symm.trans hsome
    rfl

theorem traceWork_advance {before after : List Nat} (h : ∀ i ∈ before, i ∈ after) (n : Node)
    (done done' : List Trace) (p : Nat) (ps : List Nat) (fs : List Frame) (finished : List Trace) :
    g.traceWork ⟨⟨n, done', ps⟩ :: fs, finished, after⟩ <
      g.traceWork ⟨⟨n, done, p :: ps⟩ :: fs, finished, before⟩ := by
  have hroom : g.room after ≤ g.room before := roomOf_le h g.nodes
  simp only [traceWork, stackRoom, List.length_cons]
  omega

theorem traceWork_open {p : Nat} {m : Node} {expanded : List Nat} (hm : g.get? p = some m)
    (hnew : m.id ∉ expanded) (n : Node) (done : List Trace) (ps : List Nat) (fs : List Frame)
    (finished : List Trace) :
    g.traceWork ⟨⟨m, [], m.parents⟩ :: ⟨n, done, ps⟩ :: fs, finished, expanded.insert m.id⟩ <
      g.traceWork ⟨⟨n, done, p :: ps⟩ :: fs, finished, expanded⟩ := by
  obtain rfl := (get?_some hm).2
  have hroom := room_cons hnew hm
  rw [List.insert_of_not_mem hnew]
  simp only [traceWork, stackRoom, List.length_cons]
  omega

theorem runTrace_unfolds (maxDepth : Number) (n : Node) (done : List Trace) (todo : List Nat)
    (fs : List Frame) (finished : List Trace) (expanded : List Nat) :
    ∃ ts after, g.Unfolds maxDepth (fs.length + 1) expanded todo ts after ∧
      g.runTrace maxDepth ⟨⟨n, done, todo⟩ :: fs, finished, expanded⟩ =
        g.runTrace maxDepth
          (Walk.attach (.node n none (done.reverse ++ ts)) ⟨fs, finished, after⟩) := by
  induction hwork : g.traceWork ⟨⟨n, done, todo⟩ :: fs, finished, expanded⟩
    using Nat.strongRecOn generalizing n done todo fs expanded with
  | ind work ih =>
      subst hwork
      cases todo with
      | nil => exact ⟨[], expanded, .nil, by rw [runTrace_closed, List.append_nil]⟩
      | cons p ps =>
          cases hm : g.get? p with
          | none =>
              obtain ⟨ts, after, hts, hrun⟩ :=
                ih _ (traceWork_advance (fun _ hi => hi) ..) n done ps fs expanded rfl
              exact ⟨ts, after, .missing hm hts, by rw [runTrace_missing hm, hrun]⟩
          | some m =>
              have hgrown : ∀ i ∈ expanded, i ∈ expanded.insert m.id :=
                fun _ hi => List.mem_insert_of_mem hi
              -- once the trace of the reference hangs under the open value, the others follow
              have hnext (t : Trace) {between : List Nat} (h : ∀ i ∈ expanded, i ∈ between) :=
                ih _ (traceWork_advance h ..) n (t :: done) ps fs between rfl
              rw [runTrace_visit hm]
              cases hcut : cutAt maxDepth (fs.length + 1) expanded m with
              | some cut =>
                  obtain ⟨ts, after, hts, hrun⟩ := hnext (.node m (some cut) []) hgrown
                  refine ⟨_, after, .shut hm hcut hts, ?_⟩
                  rw [visit_shut hcut]
                  refine hrun.trans ?_
                  simp
              | none =>
                  have hnew : m.id ∉ expanded := by
                    intro hmem
                    simp [cutAt, hmem] at hcut
                  by_cases hleaf : m.parents = []
                  · obtain ⟨ts, after, hts, hrun⟩ := hnext (.node m none []) hgrown
                    have hnone : g.Unfolds maxDepth (fs.length + 2) (expanded.insert m.id) m.parents
                        [] (expanded.insert m.id) := by
                      rw [hleaf]
                      exact .nil
                    refine ⟨_, after, .opened hm hcut hnone hts, ?_⟩
                    rw [visit_leaf hnew hleaf]
                    refine hrun.trans ?_
                    simp
                  · obtain ⟨us, between, hus, hparents⟩ :=
                      ih _ (traceWork_open hm hnew ..) m [] m.parents (⟨n, done, ps⟩ :: fs) _ rfl
                    obtain ⟨ts, after, hts, hrun⟩ := hnext (.node m none us) fun i hi =>
                      hus.expanded_subset i (hgrown i hi)
                    refine ⟨_, after, .opened hm hcut hus hts, ?_⟩
                    rw [visit_opened hcut hleaf]
                    refine (hparents.trans hrun).trans ?_
                    simp

theorem runTrace_finished (g : Graph) (maxDepth : Number) (t : Trace) (expanded : List Nat) :
    g.runTrace maxDepth (Walk.attach t ⟨[], [], expanded⟩) = ⟨[], [t], expanded⟩ := by
  rw [runTrace]
  rfl

theorem trace_unfolds (maxDepth : Number) {n : Node} (hn : g.get? n.id = some n)
    (expanded : List Nat) :
    g.Unfolds maxDepth 0 expanded [n.id] [(g.trace maxDepth n expanded).1]
      (g.trace maxDepth n expanded).2 := by
  unfold trace
  cases hcut : cutAt maxDepth 0 expanded n with
  | some cut =>
      rw [visit_shut hcut, runTrace_finished]
      exact .shut hn hcut .nil
  | none =>
      by_cases hleaf : n.parents = []
      · have hnew : n.id ∉ expanded := by
          intro hmem
          simp [cutAt, hmem] at hcut
        rw [visit_leaf hnew hleaf, runTrace_finished]
        refine .opened hn hcut ?_ .nil
        rw [hleaf]
        exact .nil
      · obtain ⟨ts, after, hts, hrun⟩ :=
          runTrace_unfolds (g := g) maxDepth n [] n.parents [] [] (expanded.insert n.id)
        rw [visit_opened hcut hleaf, hrun, runTrace_finished]
        exact .opened hn hcut hts .nil

theorem Unfolds.sound {depth : Nat} {expanded ids after : List Nat} {ts : List Trace}
    (h : g.Unfolds maxDepth depth expanded ids ts after) :
    ∀ s ∈ sightsOfAll ts, g.get? s.1.id = some s.1 ∧ ∃ p ∈ ids, g.Ancestor p s.1.id := by
  induction h with
  | nil => simp [sightsOfAll]
  | missing _ _ ih => exact fun s hs => (ih s hs).imp_right List.exists_mem_cons_of_exists
  | @shut _ _ _ n _ _ _ _ hn _ _ ih =>
      obtain rfl := (get?_some hn).2
      intro s hs
      rw [Trace.sightsOfAll_cons, List.mem_cons] at hs
      rcases hs with rfl | hs
      · exact ⟨hn, n.id, List.mem_cons_self, Relation.ReflTransGen.refl⟩
      · exact (ih s hs).imp_right List.exists_mem_cons_of_exists
  | @opened _ _ _ n _ _ _ _ _ hn _ _ _ ihParents ih =>
      obtain rfl := (get?_some hn).2
      intro s hs
      rw [Trace.sightsOfAll_cons, List.mem_cons, List.mem_append] at hs
      rcases hs with rfl | hs | hs
      · exact ⟨hn, n.id, List.mem_cons_self, Relation.ReflTransGen.refl⟩
      · obtain ⟨hstored, p, hp, habove⟩ := ihParents s hs
        exact ⟨hstored, n.id, List.mem_cons_self, .head ⟨n, hn, hp⟩ habove⟩
      · exact (ih s hs).imp_right List.exists_mem_cons_of_exists

theorem Unfolds.shown {depth : Nat} {expanded ids after : List Nat} {ts : List Trace}
    (h : g.Unfolds maxDepth depth expanded ids ts after) {i : Nat} (hi : i ∈ after) :
    i ∈ expanded ∨ i ∈ (sightsOfAll ts).map fun s => s.1.id := by
  induction h with
  | nil => exact .inl hi
  | missing _ _ ih => exact ih hi
  | shut _ _ _ ih =>
      have hrest := ih hi
      rw [Trace.sightsOfAll_cons, List.map_cons, List.mem_cons]
      rw [List.mem_insert_iff] at hrest
      tauto
  | opened _ _ _ _ ihParents ih =>
      rw [Trace.sightsOfAll_cons, List.map_cons, List.map_append, List.mem_cons, List.mem_append]
      rcases ih hi with hbetween | hrest
      · have hparents := ihParents hbetween
        rw [List.mem_insert_iff] at hparents
        tauto
      · tauto

theorem Unfolds.closed {depth : Nat} {expanded ids after : List Nat} {ts : List Trace}
    (h : g.Unfolds maxDepth depth expanded ids ts after)
    (whole : ∀ s ∈ sightsOfAll ts, s.2 ≠ some .truncated) :
    (∀ p ∈ ids, g.has p → p ∈ after) ∧
      ∀ i ∈ after, i ∈ expanded ∨ ∀ p, g.IsParent i p → g.has p → p ∈ after := by
  induction h with
  | nil => exact ⟨by simp, fun i hi => .inl hi⟩
  | @missing _ _ p _ _ _ hp _ ih =>
      obtain ⟨hall, hclosed⟩ := ih whole
      refine ⟨List.forall_mem_cons.2 ⟨fun hstored => ?_, hall⟩, hclosed⟩
      simp [has, hp] at hstored
  | @shut _ expanded _ n cut _ _ _ hn hcut hrest ih =>
      obtain rfl := (get?_some hn).2
      rw [Trace.sightsOfAll_cons, List.forall_mem_cons] at whole
      obtain ⟨hall, hclosed⟩ := ih whole.2
      -- the value is cut as one that was expanded before
      have hmem : n.id ∈ expanded := by
        by_contra hnew
        simp only [cutAt, hnew, if_false, Option.ite_none_right_eq_some, Option.some.injEq] at hcut
        exact whole.1 (congrArg some hcut.2.symm)
      refine ⟨List.forall_mem_cons.2 ⟨fun _ => ?_, hall⟩, fun i hi => ?_⟩
      · exact hrest.expanded_subset _ (List.mem_insert_of_mem hmem)
      · have hi := hclosed i hi
        rwa [List.insert_of_mem hmem] at hi
  | @opened _ expanded _ n _ between _ _ after hn _ hparents hrest ihParents ih =>
      obtain rfl := (get?_some hn).2
      rw [Trace.sightsOfAll_cons, List.forall_mem_cons, List.forall_mem_append] at whole
      obtain ⟨hupper, hupperClosed⟩ := ihParents whole.2.1
      obtain ⟨hall, hclosed⟩ := ih whole.2.2
      have hkept := hrest.expanded_subset
      refine ⟨List.forall_mem_cons.2 ⟨fun _ => ?_, hall⟩, fun i hi => ?_⟩
      · exact hkept _ (hparents.expanded_subset _ (List.mem_insert_self))
      · rcases hclosed i hi with hbetween | hstep
        · rcases hupperClosed i hbetween with hold | hstep
          · rcases List.mem_insert_iff.1 hold with rfl | hold
            · refine .inr fun p hp hstored => hkept p (hupper p ?_ hstored)
              obtain ⟨m, hm, hmem⟩ := hp
              cases hn.symm.trans hm
              exact hmem
            · exact .inl hold
          · exact .inr fun p hp hstored => hkept p (hstep p hp hstored)
        · exact .inr hstep

theorem Layered.mem_sights (hg : Layered g.nodes) {ids after : List Nat} {ts : List Trace}
    (h : g.Unfolds maxDepth 0 [] ids ts after) (hids : ∀ p ∈ ids, g.has p)
    (whole : ∀ s ∈ sightsOfAll ts, s.2 ≠ some .truncated) {m : Node} :
    m ∈ (sightsOfAll ts).map Prod.fst ↔ ∃ p ∈ ids, m ∈ g.ancestry p := by
  constructor
  · intro hm
    obtain ⟨s, hs, rfl⟩ := List.mem_map.1 hm
    obtain ⟨hstored, p, hp, habove⟩ := h.sound s hs
    exact ⟨p, hp, mem_ancestry.2 ⟨(get?_some hstored).1, habove⟩⟩
  · rintro ⟨p, hp, hm⟩
    obtain ⟨hmem, habove⟩ := mem_ancestry.1 hm
    obtain ⟨hroots, hclosed⟩ := h.closed whole
    have hexpanded : m.id ∈ after := by
      generalize m.id = a at habove
      induction habove with
      | refl => exact hroots p hp (hids p hp)
      | @tail b c hb hstep ih =>
          have hstored : g.has c := hg.stored_ancestor (hids p hp) (hb.tail hstep)
          exact (hclosed b ih).resolve_left (by simp) c hstep hstored
    have hshown := (h.shown hexpanded).resolve_left (by simp)
    obtain ⟨s, hs, hid⟩ := List.mem_map.1 hshown
    obtain ⟨hstored, -⟩ := h.sound s hs
    rw [hid, hg.get? hmem] at hstored
    exact List.mem_map.2 ⟨s, hs, (Option.some_inj.1 hstored).symm⟩

theorem Layered.mem_trace (hg : Layered g.nodes) {n : Node} (hn : g.get? n.id = some n)
    (whole : ¬(g.trace maxDepth n []).1.isTruncated) {m : Node} :
    m ∈ (g.trace maxDepth n []).1.rows.map Trace.Row.value ↔ m ∈ g.ancestry n.id := by
  have h := trace_unfolds maxDepth hn []
  generalize g.trace maxDepth n [] = result at h whole ⊢
  obtain ⟨t, after⟩ := result
  have hsights : sightsOfAll [t] = t.sights := by simp [sightsOfAll]
  have hwhole : ∀ s ∈ sightsOfAll [t], s.2 ≠ some .truncated := by
    rw [hsights, ← Trace.sight_rows, List.forall_mem_map]
    simpa [Trace.isTruncated, Trace.Row.sight] using whole
  have hroot : ∀ p ∈ [n.id], g.has p := by simp [has, hn]
  rw [Trace.values_rows, ← hsights, hg.mem_sights h hroot hwhole]
  simp

end Graph

end ToolGate
