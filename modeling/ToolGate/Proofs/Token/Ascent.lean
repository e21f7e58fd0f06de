import Mathlib.Logic.Function.Iterate
import ToolGate.Proofs.Token.Delegation

namespace ToolGate

structure Ascent where
  current : Option Token
  listed : List String

inductive Inspection where
  | reading (k : Token)
  | done (s : TokenStatus)

namespace Table

variable {t : Table} {k l root : Token} {id p : String} {ids : List String} {instant : Number}

def ascend (t : Table) : Ascent → Ascent
  | ⟨none, ids⟩ => ⟨none, ids⟩
  | ⟨some k, ids⟩ => ⟨k.parent.bind t.get?, ids ++ [k.id]⟩

def inspect (t : Table) (w : Window) (instant : Number) : Inspection → Inspection
  | .done s => .done s
  | .reading k =>
      if k.revoked then .done .revoked
      else match k.parent with
        | none => .done (w.status instant).tokenStatus
        | some p => match t.get? p with
            | none => .done .unknown
            | some l => .reading l

def place (t : Table) (id : String) : Nat :=
  (t.toList.map Token.id).idxOf id

theorem Sound.lineage_cons (ht : t.Sound) (hk : t.get? id = some k) (hp : k.parent = some p) :
    t.lineage id = k.id :: t.lineage p := by
  rw [lineage, ht.chain_of_get? hk, hp]
  rfl

theorem Sound.lineage_root (ht : t.Sound) (hk : t.get? id = some k) (hroot : k.parent = none) :
    t.lineage id = [k.id] := by
  rw [lineage, ht.chain_of_get? hk, hroot]
  rfl

theorem Sound.ascend_lineage (ht : t.Sound) (hk : t.get? id = some k) (ids : List String) :
    t.ascend^[(t.lineage id).length] ⟨some k, ids⟩ = ⟨none, ids ++ t.lineage id⟩ := by
  refine ht.descend (P := fun id k =>
    ∀ ids, t.ascend^[(t.lineage id).length] ⟨some k, ids⟩ = ⟨none, ids ++ t.lineage id⟩) ?_ ?_ hk ids
  · intro id k hk hroot ids
    have hstep : t.ascend ⟨some k, ids⟩ = ⟨none, ids ++ [k.id]⟩ := by simp [ascend, hroot]
    rw [ht.lineage_root hk hroot]
    exact hstep
  · intro id k p l hk hp hl ih ids
    have hstep : t.ascend ⟨some k, ids⟩ = ⟨some l, ids ++ [k.id]⟩ := by simp [ascend, hp, hl]
    rw [ht.lineage_cons hk hp, List.length_cons, Function.iterate_succ_apply, hstep, ih,
      List.append_assoc]
    rfl

theorem Sound.inspect_lineage (ht : t.Sound) (hk : t.get? id = some k) (w : Window) :
    (t.inspect w instant)^[(t.lineage id).length] (.reading k) =
      .done (if (chain id t.tokens).any Token.revoked then .revoked
        else (w.status instant).tokenStatus) := by
  refine ht.descend (P := fun id k =>
    (t.inspect w instant)^[(t.lineage id).length] (.reading k) =
      .done (if (chain id t.tokens).any Token.revoked then .revoked
        else (w.status instant).tokenStatus)) ?_ ?_ hk
  · intro id k hk hroot
    rw [ht.lineage_root hk hroot, ht.chain_of_get? hk, hroot]
    cases hrevoked : k.revoked <;> simp [inspect, hrevoked, hroot]
  · intro id k p l hk hp hl ih
    rw [ht.lineage_cons hk hp, ht.chain_of_get? hk, hp, List.length_cons, Function.iterate_succ_apply]
    cases hrevoked : k.revoked with
    | true =>
        have hstep : t.inspect w instant (.reading k) = .done .revoked := by simp [inspect, hrevoked]
        rw [hstep, Function.iterate_fixed rfl]
        simp [hrevoked]
    | false =>
        have hstep : t.inspect w instant (.reading k) = .reading l := by
          simp [inspect, hrevoked, hp, hl]
        rw [hstep, ih]
        simp [hrevoked]

theorem mem_ids : id ∈ t.toList.map Token.id ↔ t.has id := by
  rw [has, get?, List.find?_isSome]
  simp [toList]

theorem place_add_of_has (k : Token) (h : t.has id) : (t.add k).place id = t.place id := by
  rw [place, toList_add, List.map_append, List.idxOf_append_of_mem (mem_ids.2 h)]
  rfl

theorem place_lt_add (fresh : ¬t.has k.id) (h : t.has id) :
    (t.add k).place id < (t.add k).place k.id := by
  have hin := List.idxOf_lt_length_of_mem (mem_ids.2 h)
  rw [place_add_of_has k h, place, place, toList_add, List.map_append,
    List.idxOf_append_of_notMem (mt mem_ids.1 fresh)]
  exact Nat.lt_add_right _ hin

theorem Sound.place_parent (ht : t.Sound) (hk : t.get? id = some k) (hp : k.parent = some p) :
    t.place p < t.place k.id := by
  induction ht generalizing id k with
  | empty => cases hk
  | @add t l ht fresh hl ih =>
      rw [get?_add] at hk
      split at hk
      · cases hk
        obtain ⟨m, hm, -⟩ := hl.narrower p hp
        exact place_lt_add fresh (has_of_get? hm)
      · obtain ⟨m, hm, -⟩ := (ht.supports hk).narrower p hp
        obtain rfl := (get?_some hk).2
        rw [place_add_of_has l (has_of_get? hm), place_add_of_has l (has_of_get? hk)]
        exact ih hk hp

theorem Sound.scope_parent (ht : t.Sound) (hk : t.get? id = some k) (hp : k.parent = some p)
    (hl : t.get? p = some l) : k.scope.length < l.scope.length := by
  obtain ⟨m, hm, hnarrow, -⟩ := (ht.supports hk).narrower p hp
  cases hm.symm.trans hl
  have hcard := Finset.card_lt_card (Scope.isNarrower_iff.1 hnarrow).2
  rwa [List.toFinset_card_of_nodup (ht.supports hk).distinct,
    List.toFinset_card_of_nodup (ht.supports hl).distinct] at hcard

/-- The IDs from a token to its root, each that of the parent of the one before it. -/
structure IsLineage (t : Table) (k root : Token) (ids : List String) : Prop where
  first : ids.head? = some k.id
  last : ids.getLast? = some root.id
  rooted : t.get? root.id = some root ∧ root.parent = none
  linked : ids.IsChain fun a b => ∃ k, t.get? a = some k ∧ k.parent = some b
  downward : ids.Pairwise (t.place · > t.place ·)
  distinct : ids.Nodup
  short : ids.length + k.scope.length ≤ root.scope.length + 1

theorem IsLineage.single (hk : t.get? k.id = some k) (hroot : k.parent = none) :
    t.IsLineage k k [k.id] where
  first := rfl
  last := rfl
  rooted := ⟨hk, hroot⟩
  linked := .singleton _
  downward := List.pairwise_singleton _ _
  distinct := List.nodup_singleton _
  short := by simp [Nat.add_comm]

theorem IsLineage.child (h : t.IsLineage l root ids) (hk : t.get? k.id = some k)
    (hp : k.parent = some l.id) (hplace : t.place l.id < t.place k.id)
    (hscope : k.scope.length < l.scope.length) : t.IsLineage k root (k.id :: ids) := by
  obtain ⟨rest, rfl⟩ := List.head?_eq_some_iff.1 h.first
  have hbelow : ∀ a ∈ l.id :: rest, t.place a < t.place k.id := by
    intro a ha
    rcases List.mem_cons.1 ha with rfl | ha
    · exact hplace
    · exact Nat.lt_trans (List.rel_of_pairwise_cons h.downward ha) hplace
  refine ⟨rfl, ?_, h.rooted, ?_, List.pairwise_cons.2 ⟨hbelow, h.downward⟩, ?_, ?_⟩
  · rw [List.getLast?_cons_cons]
    exact h.last
  · exact List.isChain_cons_cons.2 ⟨⟨k, hk, hp⟩, h.linked⟩
  · refine List.nodup_cons.2 ⟨?_, h.distinct⟩
    intro hmem
    exact Nat.lt_irrefl _ (hbelow k.id hmem)
  · have hshort := h.short
    simp only [List.length_cons] at hshort ⊢
    omega

theorem Sound.isLineage (ht : t.Sound) (hk : t.get? id = some k) :
    ∃ root, t.IsLineage k root (t.lineage id) := by
  refine ht.descend (P := fun id k => ∃ root, t.IsLineage k root (t.lineage id)) ?_ ?_ hk
  · intro id k hk hroot
    obtain rfl := (get?_some hk).2
    rw [ht.lineage_root hk hroot]
    exact ⟨k, .single hk hroot⟩
  · intro id k p l hk hp hl ih
    obtain ⟨root, hline⟩ := ih
    obtain rfl := (get?_some hk).2
    obtain rfl := (get?_some hl).2
    rw [ht.lineage_cons hk hp]
    exact ⟨root, hline.child hk hp (ht.place_parent hk hp) (ht.scope_parent hk hp hl)⟩

theorem walk_ends_at_root (ht : t.Reached) (hk : t.get? id = some k) :
    t.ascend^[(t.lineage id).length] ⟨t.get? id, []⟩ = ⟨none, t.lineage id⟩ ∧
      (∃ root, t.IsLineage k root (t.lineage id)) ∧
      ∀ instant, (t.inspect k.window instant)^[(t.lineage id).length] (.reading k) =
          .done (t.validate id instant) ∧
        t.validate id instant ≠ .unknown := by
  refine ⟨?_, ht.sound.isLineage hk, ?_⟩
  · rw [hk]
    exact ht.sound.ascend_lineage hk []
  · intro instant
    rw [ht.sound.inspect_lineage hk, ht.sound.validate_eq hk]
    refine ⟨rfl, ?_⟩
    split
    · nofun
    · cases k.window.status instant <;> nofun

open Line in
theorem walk_ends_at_root_of_agent :
    grown.lineage "agent" = ["agent", "team", "root"] ∧
      grown.ascend^[3] ⟨some agent, []⟩ = ⟨none, ["agent", "team", "root"]⟩ ∧
      (∃ root, grown.IsLineage agent root ["agent", "team", "root"]) ∧
      (grown.inspect agent.window 5)^[3] (.reading agent) = .done (grown.validate "agent" 5) := by
  have hagent : grown.get? "agent" = some agent := by decide +kernel
  have hline : grown.lineage "agent" = ["agent", "team", "root"] := by decide +kernel
  obtain ⟨hascent, hlineage, hstanding⟩ := walk_ends_at_root grown_reached hagent
  rw [hline] at hascent hlineage hstanding
  exact ⟨hline, hascent, hlineage, (hstanding 5).1⟩

end Table

end ToolGate
