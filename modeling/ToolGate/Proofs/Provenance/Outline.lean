import Mathlib.Algebra.Order.BigOperators.Group.Finset
import ToolGate.Proofs.Provenance.Unfolding
import ToolGate.Provenance.Witness

namespace ToolGate

namespace Trace

def root : Trace → Node
  | .node value _ _ => value

structure Spot where
  depth : Nat
  value : Node
  cut : Option Cut
  listed : List Nat
deriving DecidableEq

mutual

def spots (depth : Nat) : Trace → List Spot
  | .node value cut parents =>
      ⟨depth, value, cut, parents.map (·.root.id)⟩ :: spotsOfAll (depth + 1) parents

def spotsOfAll (depth : Nat) : List Trace → List Spot
  | [] => []
  | t :: ts => spots depth t ++ spotsOfAll depth ts

end

theorem spotsOfAll_cons (depth : Nat) (n : Node) (cut : Option Cut) (us ts : List Trace) :
    spotsOfAll depth (.node n cut us :: ts) =
      ⟨depth, n, cut, us.map (·.root.id)⟩ ::
        (spotsOfAll (depth + 1) us ++ spotsOfAll depth ts) := rfl

def Spot.sight (s : Spot) : Node × Option Cut := (s.value, s.cut)

mutual

theorem sight_spots (depth : Nat) (t : Trace) : (t.spots depth).map Spot.sight = t.sights := by
  match t with
  | .node value cut parents =>
      rw [spots, List.map_cons, sight_spotsOfAll (depth + 1) parents, sights]
      rfl

theorem sight_spotsOfAll (depth : Nat) (ts : List Trace) :
    (spotsOfAll depth ts).map Spot.sight = sightsOfAll ts := by
  match ts with
  | [] => rfl
  | t :: ts =>
      rw [spotsOfAll, List.map_append, sight_spots depth t, sight_spotsOfAll depth ts, sightsOfAll]

end

theorem sightsOfAll_cut (n : Node) (cut : Cut) (ts : List Trace) :
    sightsOfAll (.node n (some cut) [] :: ts) = (n, some cut) :: sightsOfAll ts := rfl

theorem isTruncated_iff {t : Trace} : t.isTruncated ↔ ∃ s ∈ t.sights, s.2 = some .truncated := by
  rw [← sight_rows, isTruncated]
  simp [Row.sight]

theorem mem_sightsOfAll {ts : List Trace} {s : Node × Option Cut} :
    s ∈ sightsOfAll ts ↔ ∃ t ∈ ts, s ∈ t.sights := by
  induction ts with
  | nil => simp [sightsOfAll]
  | cons t ts ih => simp [sightsOfAll, ih]

/-- The IDs of the values shown, but for the places where they come again. -/
def firstIds (ts : List Trace) : List Nat :=
  ((sightsOfAll ts).filter (·.2 ≠ some .repeated)).map (·.1.id)

def fanOut (ts : List Trace) : Nat :=
  (((sightsOfAll ts).filter (·.2 = none)).flatMap (·.1.parents)).length

theorem fanOut_cut (n : Node) (cut : Cut) (ts : List Trace) :
    fanOut (.node n (some cut) [] :: ts) = fanOut ts := by
  simp [fanOut, sightsOfAll_cut]

theorem fanOut_open (n : Node) (us ts : List Trace) :
    fanOut (.node n none us :: ts) = n.parents.length + fanOut us + fanOut ts := by
  simp [fanOut, sightsOfAll_cons, Nat.add_assoc]

end Trace

namespace Witness

def traces (w : Witness) : List Trace :=
  w.arguments.filterMap fun a => a.exhibit.map (·.trace)

def spots (w : Witness) : List Trace.Spot := Trace.spotsOfAll 0 w.traces

theorem isTruncated_iff {w : Witness} :
    w.isTruncated ↔ ∃ s ∈ w.spots, s.cut = some .truncated := by
  have hspots : (∃ s ∈ w.spots, s.cut = some .truncated) ↔
      ∃ s ∈ Trace.sightsOfAll w.traces, s.2 = some .truncated := by
    rw [← Trace.sight_spotsOfAll 0]
    simp [spots, Trace.Spot.sight]
  rw [hspots]
  simp only [isTruncated, List.any_eq_true, Option.any_eq_true, Trace.isTruncated_iff, traces,
    Trace.mem_sightsOfAll, List.mem_filterMap, Option.map_eq_some_iff]
  grind

end Witness

namespace Graph

open Trace (Spot cutAt sightsOfAll spotsOfAll firstIds fanOut)

variable {g : Graph} {maxDepth : Number} {depth d : Nat} {expanded ids after : List Nat}
  {ts : List Trace}

theorem Unfolds.append {between more : List Nat} {us : List Trace}
    (h : g.Unfolds maxDepth depth expanded ids ts between)
    (hmore : g.Unfolds maxDepth depth between more us after) :
    g.Unfolds maxDepth depth expanded (ids ++ more) (ts ++ us) after := by
  induction h with
  | nil => exact hmore
  | missing hp _ ih => exact .missing hp (ih hmore)
  | shut hn hcut _ ih => exact .shut hn hcut (ih hmore)
  | opened hn hcut hparents _ _ ih => exact .opened hn hcut hparents (ih hmore)

theorem cutAt_repeated {n : Node} :
    cutAt maxDepth depth expanded n = some .repeated ↔ n.id ∈ expanded := by
  unfold cutAt
  split
  · simp_all
  · split <;> simp_all

theorem cutAt_truncated {n : Node} :
    cutAt maxDepth depth expanded n = some .truncated ↔
      n.id ∉ expanded ∧ n.parents ≠ [] ∧ maxDepth.leNat depth := by
  unfold cutAt
  split
  · simp_all
  · split <;> simp_all

theorem cutAt_none {n : Node} :
    cutAt maxDepth depth expanded n = none ↔
      n.id ∉ expanded ∧ (n.parents ≠ [] → ¬maxDepth.leNat depth) := by
  unfold cutAt
  split
  · simp_all
  · split <;> simp_all

theorem Unfolds.after_eq (h : g.Unfolds maxDepth depth expanded ids ts after) :
    after = (firstIds ts).reverse ++ expanded := by
  induction h with
  | nil => rfl
  | missing _ _ ih => exact ih
  | @shut _ _ _ n cut _ _ _ _ hcut _ ih =>
      cases cut with
      | repeated =>
          rw [List.insert_of_mem (cutAt_repeated.1 hcut)] at ih
          rw [ih]
          rfl
      | truncated =>
          rw [List.insert_of_not_mem (cutAt_truncated.1 hcut).1] at ih
          rw [ih]
          simp [firstIds, Trace.sightsOfAll_cut]
  | opened _ hcut _ _ ihParents ih =>
      rw [List.insert_of_not_mem (cutAt_none.1 hcut).1] at ihParents
      rw [ih, ihParents]
      simp [firstIds, Trace.sightsOfAll_cons]

theorem Unfolds.nodup (h : g.Unfolds maxDepth depth expanded ids ts after)
    (distinct : expanded.Nodup) : after.Nodup := by
  induction h with
  | nil => exact distinct
  | missing _ _ ih => exact ih distinct
  | shut _ _ _ ih => exact ih distinct.insert
  | opened _ _ _ _ ihParents ih => exact ih (ihParents distinct.insert)

theorem Unfolds.mem_after (h : g.Unfolds maxDepth depth expanded ids ts after) :
    ∀ s ∈ sightsOfAll ts, s.1.id ∈ after := by
  induction h with
  | nil => simp [sightsOfAll]
  | missing _ _ ih => exact ih
  | shut _ _ hrest ih =>
      rw [Trace.sightsOfAll_cut, List.forall_mem_cons]
      exact ⟨hrest.expanded_subset _ List.mem_insert_self, ih⟩
  | opened _ _ hparents hrest ihParents ih =>
      rw [Trace.sightsOfAll_cons, List.forall_mem_cons, List.forall_mem_append]
      have hkept := hrest.expanded_subset
      exact ⟨hkept _ (hparents.expanded_subset _ List.mem_insert_self),
        fun s hs => hkept _ (ihParents s hs), ih⟩

theorem Unfolds.map_root (h : g.Unfolds maxDepth depth expanded ids ts after)
    (hids : ∀ p ∈ ids, g.has p) : ts.map (·.root.id) = ids := by
  induction h with
  | nil => rfl
  | missing hp _ _ => simp [has, hp] at hids
  | shut hn _ _ ih =>
      obtain ⟨-, hids⟩ := List.forall_mem_cons.1 hids
      rw [List.map_cons, ih hids, Trace.root, (get?_some hn).2]
  | opened hn _ _ _ _ ih =>
      obtain ⟨-, hids⟩ := List.forall_mem_cons.1 hids
      rw [List.map_cons, ih hids, Trace.root, (get?_some hn).2]

theorem Unfolds.listed (h : g.Unfolds maxDepth depth expanded ids ts after)
    (hg : Layered g.nodes) : ∀ s ∈ spotsOfAll depth ts,
      s.listed = if s.cut = none then s.value.parents else [] := by
  induction h with
  | nil => simp [spotsOfAll]
  | missing _ _ ih => exact ih
  | shut _ _ _ ih =>
      rw [Trace.spotsOfAll_cons, List.forall_mem_cons]
      exact ⟨rfl, ih⟩
  | opened hn _ hparents _ ihParents ih =>
      rw [Trace.spotsOfAll_cons, List.forall_mem_cons, List.forall_mem_append]
      refine ⟨hparents.map_root ?_, ihParents, ih⟩
      exact fun p hp => has_iff.2 ((hg.parent (get?_some hn).1).2 p hp).2

theorem Unfolds.depth_le (h : g.Unfolds maxDepth depth expanded ids ts after)
    (hd : maxDepth.natural? = some d) (hdepth : depth ≤ d) : ∀ s ∈ spotsOfAll depth ts,
      s.depth ≤ d ∧ (s.cut = some .truncated → s.depth = d ∧ s.value.parents ≠ []) := by
  induction h with
  | nil => simp [spotsOfAll]
  | missing _ _ ih => exact ih hdepth
  | @shut depth _ _ n cut _ _ _ _ hcut _ ih =>
      rw [Trace.spotsOfAll_cons, List.forall_mem_cons]
      refine ⟨⟨hdepth, ?_⟩, ih hdepth⟩
      rintro ⟨⟩
      obtain ⟨-, hinner, hdeep⟩ := cutAt_truncated.1 hcut
      exact ⟨Nat.le_antisymm hdepth ((Number.leNat_iff hd).1 hdeep), hinner⟩
  | @opened depth _ _ n us _ _ _ _ _ hcut hparents _ ihParents ih =>
      rw [Trace.spotsOfAll_cons, List.forall_mem_cons, List.forall_mem_append]
      refine ⟨⟨hdepth, nofun⟩, ?_, ih hdepth⟩
      by_cases hinner : n.parents = []
      · rw [hinner] at hparents
        cases hparents
        simp [spotsOfAll]
      · have hroom := mt (Number.leNat_iff hd).2 ((cutAt_none.1 hcut).2 hinner)
        exact ihParents (Nat.not_le.1 hroom)

theorem Unfolds.length_le (h : g.Unfolds maxDepth depth expanded ids ts after) :
    (sightsOfAll ts).length ≤ ids.length + fanOut ts := by
  induction h with
  | nil => exact Nat.zero_le _
  | missing _ _ ih =>
      rw [List.length_cons]
      omega
  | shut _ _ _ ih =>
      rw [Trace.sightsOfAll_cut, Trace.fanOut_cut]
      simp only [List.length_cons]
      omega
  | opened _ _ _ _ ihParents ih =>
      rw [Trace.sightsOfAll_cons, Trace.fanOut_open]
      simp only [List.length_cons, List.length_append]
      omega

def rootIds (g : Graph) (roots : List Root) : List Nat :=
  roots.filterMap fun r => (g.resolve? r.value).map Node.id

theorem mem_rootIds {roots : List Root} {p : Nat} :
    p ∈ g.rootIds roots ↔ ∃ r ∈ roots, ∃ n, g.resolve? r.value = some n ∧ n.id = p := by
  simp [rootIds]

theorem has_of_mem_rootIds {roots : List Root} {p : Nat} (hp : p ∈ g.rootIds roots) : g.has p := by
  obtain ⟨r, -, n, hn, rfl⟩ := mem_rootIds.1 hp
  exact has_of_get? (resolve?_some hn)

theorem exhibits_unfolds (g : Graph) (maxDepth : Number) (roots : List Root) (expanded : List Nat) :
    ∃ after, g.Unfolds maxDepth 0 expanded (g.rootIds roots)
      ((g.exhibits maxDepth roots expanded).filterMap fun a => a.exhibit.map (·.trace)) after := by
  induction roots generalizing expanded with
  | nil => exact ⟨expanded, .nil⟩
  | cons r roots ih =>
      cases hn : g.resolve? r.value with
      | none =>
          obtain ⟨after, hrest⟩ := ih expanded
          refine ⟨after, ?_⟩
          simpa [rootIds, exhibits, hn] using hrest
      | some n =>
          have hfirst := trace_unfolds maxDepth (resolve?_some hn) expanded
          obtain ⟨after, hrest⟩ := ih (g.trace maxDepth n expanded).2
          refine ⟨after, ?_⟩
          simpa [rootIds, exhibits, hn] using hfirst.append hrest

theorem witness_unfolds (g : Graph) (maxDepth : Number) (roots : List Root) :
    ∃ after, g.Unfolds maxDepth 0 [] (g.rootIds roots) (g.witness maxDepth roots).traces after :=
  exhibits_unfolds g maxDepth roots []

structure Outlines (g : Graph) (roots : List Root) (maxDepth : Nat) (w : Witness) : Prop where
  stored : ∀ s ∈ w.spots, g.get? s.value.id = some s.value
  once : ((w.spots.filter (·.cut ≠ some .repeated)).map Spot.value).Nodup
  listed : ∀ s ∈ w.spots, s.cut = none → s.listed = s.value.parents
  truncated : ∀ s ∈ w.spots, s.cut = some .truncated →
    s.depth = maxDepth ∧ s.value.parents ≠ [] ∧ s.listed = []
  depth : ∀ s ∈ w.spots, s.depth ≤ maxDepth
  flag : w.isTruncated ↔ ∃ s ∈ w.spots, s.cut = some .truncated
  whole : ¬w.isTruncated → ∀ m, (∃ s ∈ w.spots, s.value = m) ↔
    ∃ r ∈ roots, ∃ n, g.resolve? r.value = some n ∧ m ∈ g.ancestry n.id
  size : w.spots.length ≤
    roots.length + ∑ n ∈ (w.spots.map Spot.value).toFinset, n.parents.length

theorem Unfolds.stored (h : g.Unfolds maxDepth depth expanded ids ts after) :
    ∀ s ∈ spotsOfAll depth ts, g.get? s.value.id = some s.value := by
  intro s hs
  refine (h.sound s.sight ?_).1
  rw [← Trace.sight_spotsOfAll depth]
  exact List.mem_map_of_mem hs

theorem Unfolds.once (h : g.Unfolds maxDepth depth [] ids ts after) :
    (((spotsOfAll depth ts).filter (·.cut ≠ some .repeated)).map Spot.value).Nodup := by
  have hdistinct := h.nodup .nil
  rw [h.after_eq, List.append_nil, List.nodup_reverse, firstIds, ← Trace.sight_spotsOfAll depth,
    List.filter_map, List.map_map] at hdistinct
  refine List.Nodup.of_map Node.id ?_
  rw [List.map_map]
  exact hdistinct

theorem values_spotsOfAll (depth : Nat) (ts : List Trace) :
    (spotsOfAll depth ts).map Spot.value = (sightsOfAll ts).map Prod.fst := by
  rw [← Trace.sight_spotsOfAll depth, List.map_map]
  rfl

theorem Unfolds.fanOut_le (h : g.Unfolds maxDepth depth [] ids ts after) :
    fanOut ts ≤ ∑ n ∈ ((spotsOfAll depth ts).map Spot.value).toFinset, n.parents.length := by
  let opened := (spotsOfAll depth ts).filter (·.cut = none)
  have hsublist : opened.Sublist ((spotsOfAll depth ts).filter (·.cut ≠ some .repeated)) := by
    refine List.monotone_filter_right _ fun s hs => ?_
    simp_all
  have hdistinct : (opened.map Spot.value).Nodup := h.once.sublist (hsublist.map Spot.value)
  have hsum : fanOut ts = ∑ n ∈ (opened.map Spot.value).toFinset, n.parents.length := by
    rw [List.sum_toFinset _ hdistinct, fanOut, List.length_flatMap,
      ← Trace.sight_spotsOfAll depth, List.filter_map, List.map_map, List.map_map]
    rfl
  rw [hsum]
  refine Finset.sum_le_sum_of_subset fun n hn => ?_
  simp only [List.mem_toFinset, List.mem_map] at hn ⊢
  obtain ⟨s, hs, rfl⟩ := hn
  exact ⟨s, (List.mem_filter.1 hs).1, rfl⟩

theorem Unfolds.whole (h : g.Unfolds maxDepth 0 [] ids ts after) (hg : Layered g.nodes)
    (hids : ∀ p ∈ ids, g.has p) (hwhole : ¬∃ s ∈ spotsOfAll 0 ts, s.cut = some .truncated)
    {m : Node} : (∃ s ∈ spotsOfAll 0 ts, s.value = m) ↔ ∃ p ∈ ids, m ∈ g.ancestry p := by
  have hnone : ∀ s ∈ sightsOfAll ts, s.2 ≠ some .truncated := by
    rw [← Trace.sight_spotsOfAll 0, List.forall_mem_map]
    exact fun s hs hcut => hwhole ⟨s, hs, hcut⟩
  rw [← hg.mem_sights h hids hnone, ← values_spotsOfAll 0, List.mem_map]

theorem outlines_witness (hg : g.Reached) (hd : maxDepth.natural? = some d) (roots : List Root) :
    Outlines g roots d (g.witness maxDepth roots) := by
  obtain ⟨after, h⟩ := g.witness_unfolds maxDepth roots
  have hlisted := h.listed hg.layered
  have hdepth := h.depth_le hd (Nat.zero_le d)
  refine ⟨h.stored, h.once, fun s hs hcut => ?_, fun s hs hcut => ?_, fun s hs => (hdepth s hs).1,
    Witness.isTruncated_iff, fun hall m => ?_, ?_⟩
  · rw [hlisted s hs, if_pos hcut]
  · obtain ⟨hlast, hinner⟩ := (hdepth s hs).2 hcut
    exact ⟨hlast, hinner, by rw [hlisted s hs, hcut]; rfl⟩
  · have hnone := mt Witness.isTruncated_iff.2 hall
    rw [Witness.spots, h.whole hg.layered (fun p => has_of_mem_rootIds) hnone]
    simp only [mem_rootIds]
    grind
  · have hroots : (g.rootIds roots).length ≤ roots.length := List.length_filterMap_le ..
    have hplaces := h.length_le
    have hfan := h.fanOut_le
    rw [← Trace.sight_spotsOfAll 0, List.length_map] at hplaces
    unfold Witness.spots
    omega

namespace Relay

def source : Node := ⟨1, .plain .trusted, .ofTags ["hr"] false, [], literalKind⟩

def extract : Node := ⟨2, .plain .trusted, .ofTags [] false, [1], "extract"⟩

def digest : Node := ⟨3, .plain .untrusted, .ofTags [] false, [2], "summarize"⟩

def graph : Graph := ⟨⟨10, 4⟩, [digest, extract, source]⟩

theorem reached : graph.Reached :=
  ((Reached.empty ⟨10, 4⟩ |>.add source (by decide +kernel)).add extract (by decide +kernel)).add
    digest (by decide +kernel)

def roots : List Root := [⟨"body", 3, graph.closure 8 3⟩, ⟨"note", 2, graph.closure 8 2⟩]

end Relay

open Relay in
theorem outlines_witness_of_relay :
    Outlines graph roots 1 (graph.witness 1 roots) ∧ (graph.witness 1 roots).isTruncated ∧
      ∀ m, (∃ s ∈ (graph.witness 2 roots).spots, s.value = m) ↔
        ∃ r ∈ roots, ∃ n, graph.resolve? r.value = some n ∧ m ∈ graph.ancestry n.id := by
  have hone : Number.natural? 1 = some 1 := by decide +kernel
  have htwo : Number.natural? 2 = some 2 := by decide +kernel
  have hcut : (graph.witness 1 roots).isTruncated := by decide +kernel
  have hwhole : ¬(graph.witness 2 roots).isTruncated := by decide +kernel
  exact ⟨outlines_witness reached hone roots, hcut,
    (outlines_witness reached htwo roots).whole hwhole⟩

end Graph

end ToolGate
