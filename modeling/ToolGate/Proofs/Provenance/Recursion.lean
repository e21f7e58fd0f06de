import ToolGate.Proofs.Provenance.Outline

namespace ToolGate.Graph

open Trace (cutAt sightsOfAll)

structure Seen where
  expanded : List Nat
  truncated : Bool

def Seen.shut (s : Seen) (n : Node) (cut : Cut) : Seen :=
  ⟨s.expanded.insert n.id, s.truncated || cut == .truncated⟩

theorem Seen.shut_repeated {s : Seen} {n : Node} (h : n.id ∈ s.expanded) :
    s.shut n .repeated = s := by
  rw [shut, List.insert_of_mem h]
  exact congrArg (Seen.mk s.expanded) (Bool.or_false _)

theorem Seen.shut_truncated {s : Seen} {n : Node} (h : n.id ∉ s.expanded) :
    s.shut n .truncated = ⟨n.id :: s.expanded, true⟩ := by
  rw [shut, List.insert_of_not_mem h]
  exact congrArg (Seen.mk _) (Bool.or_true _)

/-- The traces of some references at a depth. A value that was expanded before is repeated, one that
has parents too deep to be shown is truncated, and any other is shown with its parents, first to
last. -/
def recount (g : Graph) (maxDepth : Number) (depth : Nat) (s : Seen) : (ids : List Nat) →
    { r : List Trace × Seen // s.expanded ⊆ r.2.expanded }
  | [] => ⟨([], s), List.Subset.refl _⟩
  | p :: ps =>
      match _hn : g.get? p with
      | none => g.recount maxDepth depth s ps
      | some n =>
          if _hp : p ∈ s.expanded then
            let rest := g.recount maxDepth depth s ps
            ⟨(.node n (some .repeated) [] :: rest.1.1, rest.1.2), rest.2⟩
          else if !n.parents.isEmpty && maxDepth.leNat depth then
            let rest := g.recount maxDepth depth ⟨p :: s.expanded, true⟩ ps
            ⟨(.node n (some .truncated) [] :: rest.1.1, rest.1.2),
              List.subset_of_cons_subset rest.2⟩
          else
            let above := g.recount maxDepth (depth + 1) ⟨p :: s.expanded, s.truncated⟩ n.parents
            let rest := g.recount maxDepth depth above.1.2 ps
            ⟨(.node n none above.1.1 :: rest.1.1, rest.1.2),
              fun _ hi => rest.2 (above.2 (List.mem_cons_of_mem _ hi))⟩
termination_by ids => g.room s.expanded + ids.length
decreasing_by
  · simp
  · simp
  · have := room_cons _hp _hn
    simp only [List.length_cons]
    omega
  · have := room_cons _hp _hn
    simp only [List.length_cons]
    omega
  · refine Nat.add_lt_add_of_le_of_lt (roomOf_le ?_ g.nodes) (Nat.lt_succ_self _)
    exact fun _ hi => above.2 (List.mem_cons_of_mem _ hi)

variable {g : Graph} {maxDepth : Number} {depth p : Nat} {s : Seen} {n : Node}

theorem recount_nil (g : Graph) (maxDepth : Number) (depth : Nat) (s : Seen) :
    (g.recount maxDepth depth s []).1 = ([], s) := by
  rw [recount]

theorem recount_missing (hp : g.get? p = none) (maxDepth : Number) (depth : Nat) (s : Seen)
    (ps : List Nat) :
    (g.recount maxDepth depth s (p :: ps)).1 = (g.recount maxDepth depth s ps).1 := by
  rw [recount]
  split
  · rfl
  · rename_i hn
    rw [hp] at hn
    cases hn

theorem recount_shut {cut : Cut} (hn : g.get? p = some n)
    (hcut : cutAt maxDepth depth s.expanded n = some cut) (ps : List Nat) :
    (g.recount maxDepth depth s (p :: ps)).1 =
      let rest := (g.recount maxDepth depth (s.shut n cut) ps).1
      (.node n (some cut) [] :: rest.1, rest.2) := by
  obtain ⟨-, rfl⟩ := get?_some hn
  rw [recount]
  split
  · rename_i hnone
    rw [hn] at hnone
    cases hnone
  · rename_i m hm
    cases hn.symm.trans hm
    cases cut with
    | repeated =>
        have hmem := cutAt_repeated.1 hcut
        rw [dif_pos hmem, Seen.shut_repeated hmem]
    | truncated =>
        obtain ⟨hnew, hinner, hdeep⟩ := cutAt_truncated.1 hcut
        rw [dif_neg hnew, if_pos (by simp [hinner, hdeep]), Seen.shut_truncated hnew]

theorem recount_opened (hn : g.get? p = some n) (hcut : cutAt maxDepth depth s.expanded n = none)
    (ps : List Nat) :
    (g.recount maxDepth depth s (p :: ps)).1 =
      let above :=
        (g.recount maxDepth (depth + 1) ⟨s.expanded.insert n.id, s.truncated⟩ n.parents).1
      let rest := (g.recount maxDepth depth above.2 ps).1
      (.node n none above.1 :: rest.1, rest.2) := by
  obtain ⟨-, rfl⟩ := get?_some hn
  obtain ⟨hnew, hshallow⟩ := cutAt_none.1 hcut
  rw [recount, List.insert_of_not_mem hnew]
  split
  · rename_i hnone
    rw [hn] at hnone
    cases hnone
  · rename_i m hm
    cases hn.symm.trans hm
    rw [dif_neg hnew, if_neg (by simpa using hshallow)]

def truncatedIn (ts : List Trace) : Bool :=
  (sightsOfAll ts).any fun s => s.2 == some .truncated

theorem truncatedIn_shut (n : Node) (cut : Cut) (ts : List Trace) :
    truncatedIn (.node n (some cut) [] :: ts) = (cut == .truncated || truncatedIn ts) := rfl

theorem truncatedIn_opened (n : Node) (us ts : List Trace) :
    truncatedIn (.node n none us :: ts) = (truncatedIn us || truncatedIn ts) := by
  rw [truncatedIn, Trace.sightsOfAll_cons, List.any_cons, List.any_append]
  exact Bool.false_or _

theorem Unfolds.recount {expanded ids after : List Nat} {ts : List Trace}
    (h : g.Unfolds maxDepth depth expanded ids ts after) (flag : Bool) :
    (g.recount maxDepth depth ⟨expanded, flag⟩ ids).1 = (ts, ⟨after, flag || truncatedIn ts⟩) := by
  induction h generalizing flag with
  | nil => rw [recount_nil, truncatedIn, sightsOfAll, List.any_nil, Bool.or_false]
  | missing hp _ ih => rw [recount_missing hp, ih]
  | shut hn hcut _ ih => rw [recount_shut hn hcut, Seen.shut, ih, truncatedIn_shut, ← Bool.or_assoc]
  | opened hn hcut _ _ ihParents ih =>
      rw [recount_opened hn hcut, ihParents]
      dsimp only
      rw [ih, truncatedIn_opened, ← Bool.or_assoc]

theorem isTruncated_eq (t : Trace) : t.isTruncated = truncatedIn [t] := by
  rw [Bool.eq_iff_iff, Trace.isTruncated_iff]
  simp [truncatedIn, sightsOfAll]

def retrace (g : Graph) (maxDepth : Number) (p : Nat) (s : Seen) : Option Trace × Seen :=
  let r := (g.recount maxDepth 0 s [p]).1
  (r.1.head?, r.2)

theorem retrace_eq (maxDepth : Number) (hn : g.get? n.id = some n) (s : Seen) :
    g.retrace maxDepth n.id s = (some (g.trace maxDepth n s.expanded).1,
      ⟨(g.trace maxDepth n s.expanded).2,
        s.truncated || (g.trace maxDepth n s.expanded).1.isTruncated⟩) := by
  have h := (trace_unfolds maxDepth hn s.expanded).recount s.truncated
  rw [retrace, h, isTruncated_eq]
  rfl

def exhibitsBy (g : Graph) (walk : Nat → Seen → Option Trace × Seen) :
    List Root → Seen → List WitnessArgument × Seen
  | [], s => ([], s)
  | r :: rs, s =>
      match g.resolve? r.value with
      | none =>
          let (rest, s) := g.exhibitsBy walk rs s
          (⟨r.argument, r.value, none⟩ :: rest, s)
      | some n =>
          let (trace?, s) := walk n.id s
          let (rest, s) := g.exhibitsBy walk rs s
          (⟨r.argument, r.value, trace?.map fun t => ⟨r.label, t⟩⟩ :: rest, s)

def witnessBy (g : Graph) (walk : Nat → Seen → Option Trace × Seen) (maxDepth : Number)
    (roots : List Root) : Witness × Bool :=
  let (arguments, s) := g.exhibitsBy walk roots ⟨[], false⟩
  (⟨arguments, maxDepth⟩, s.truncated)

theorem exhibitsBy_retrace (g : Graph) (maxDepth : Number) (roots : List Root) (s : Seen) :
    (g.exhibitsBy (g.retrace maxDepth) roots s).1 = g.exhibits maxDepth roots s.expanded ∧
      (g.exhibitsBy (g.retrace maxDepth) roots s).2.truncated =
        (s.truncated || (g.exhibits maxDepth roots s.expanded).any fun a =>
          a.exhibit.any fun e => e.trace.isTruncated) := by
  induction roots generalizing s with
  | nil => exact ⟨rfl, (Bool.or_false _).symm⟩
  | cons r roots ih =>
      rw [exhibitsBy, exhibits]
      cases hn : g.resolve? r.value with
      | none =>
          obtain ⟨harguments, hflag⟩ := ih s
          exact ⟨congrArg _ harguments, hflag⟩
      | some n =>
          have hwalk := retrace_eq maxDepth (resolve?_some hn) s
          obtain ⟨harguments, hflag⟩ := ih (g.retrace maxDepth n.id s).2
          rw [hwalk] at harguments hflag
          dsimp only
          rw [hwalk]
          exact ⟨congrArg _ harguments, hflag.trans (Bool.or_assoc ..)⟩

theorem witness_by_retrace (g : Graph) (maxDepth : Number) (roots : List Root) :
    (g.witness maxDepth roots, (g.witness maxDepth roots).isTruncated) =
      g.witnessBy (g.retrace maxDepth) maxDepth roots := by
  obtain ⟨harguments, hflag⟩ := g.exhibitsBy_retrace maxDepth roots ⟨[], false⟩
  refine Prod.ext ?_ hflag.symm
  exact congrArg (Witness.mk · maxDepth) harguments.symm

end ToolGate.Graph
