import ToolGate.Proofs.Provenance.Recursion

namespace ToolGate

namespace Trace

def listAt : List Nat → List Trace → List Trace
  | [], ts => ts
  | i :: place, ts =>
      match ts[i]? with
      | none => []
      | some (.node _ _ us) => listAt place us

def mapParents (f : List Trace → List Trace) : Trace → Trace
  | .node n cut us => .node n cut (f us)

def modifyAt (f : List Trace → List Trace) : List Nat → List Trace → List Trace
  | [], ts => f ts
  | i :: place, ts => ts.modify i (mapParents (modifyAt f place))

theorem modifyAt_modifyAt (f f' : List Trace → List Trace) (place : List Nat) (ts : List Trace) :
    modifyAt f' place (modifyAt f place ts) = modifyAt (f' ∘ f) place ts := by
  induction place generalizing ts with
  | nil => rfl
  | cons i place ih =>
      rw [modifyAt, modifyAt, modifyAt, List.modify_modify_eq]
      congr 1
      funext t
      cases t with
      | node n cut us => exact congrArg _ (ih us)

theorem modifyAt_id (place : List Nat) (ts : List Trace) : modifyAt id place ts = ts := by
  induction place generalizing ts with
  | nil => rfl
  | cons i place ih =>
      have hid : mapParents (modifyAt id place) = id := by
        funext t
        cases t with
        | node n cut us => exact congrArg _ (ih us)
      rw [modifyAt, hid, List.modify_id]

theorem modify_congr {f f' : Trace → Trace} {i : Nat} {ts : List Trace}
    (h : ∀ t, ts[i]? = some t → f t = f' t) : ts.modify i f = ts.modify i f' := by
  refine List.ext_getElem? fun j => ?_
  rw [List.getElem?_modify, List.getElem?_modify]
  split
  · rename_i hj
    subst hj
    cases hi : ts[i]? with
    | none => rfl
    | some t => exact congrArg some (h t hi)
  · rfl

theorem modifyAt_appended (f : List Trace → List Trace) (n : Node) (cut : Option Cut)
    (place : List Nat) (ts : List Trace) :
    modifyAt f (place ++ [(listAt place ts).length])
        (modifyAt (· ++ [.node n cut []]) place ts) =
      modifyAt (· ++ [.node n cut (f [])]) place ts := by
  induction place generalizing ts with
  | nil => simp [modifyAt, listAt, mapParents, List.modify_eq_take_drop]
  | cons i place ih =>
      rw [List.cons_append, modifyAt, modifyAt, modifyAt, List.modify_modify_eq]
      refine modify_congr fun t ht => ?_
      cases t with
      | node m cut us =>
          rw [listAt, ht]
          exact congrArg (Trace.node m cut) (ih us)

theorem modifyAt_concat (t : Trace) (us : List Trace) (place : List Nat) (ts : List Trace) :
    modifyAt (· ++ us) place (modifyAt (· ++ [t]) place ts) = modifyAt (· ++ t :: us) place ts := by
  rw [modifyAt_modifyAt]
  refine congrArg (modifyAt · place ts) (funext fun xs => ?_)
  simp

end Trace

namespace Graph

open Trace (cutAt listAt modifyAt)

structure Pending where
  value : Nat
  depth : Nat
  into : List Nat

structure Sweep where
  pending : List Pending
  top : List Trace
  seen : Seen

def Sweep.hang (w : Sweep) (q : Pending) (t : Trace) : Sweep :=
  { w with top := modifyAt (· ++ [t]) q.into w.top }

def Sweep.push (w : Sweep) (q : Pending) : Sweep :=
  { w with pending := q :: w.pending }

def sweepOne (g : Graph) (maxDepth : Number) (q : Pending) (w : Sweep) : Sweep :=
  match g.get? q.value with
  | none => w
  | some n =>
      if q.value ∈ w.seen.expanded then w.hang q (.node n (some .repeated) [])
      else
        let w := { w with seen := { w.seen with expanded := q.value :: w.seen.expanded } }
        if n.parents.isEmpty then w.hang q (.node n none [])
        else if maxDepth.leNat q.depth then
          { w.hang q (.node n (some .truncated) []) with seen := { w.seen with truncated := true } }
        else
          let below := q.into ++ [(listAt q.into w.top).length]
          n.parents.reverse.foldl (fun w p => w.push ⟨p, q.depth + 1, below⟩)
            (w.hang q (.node n none []))

theorem foldl_push (ps : List Nat) (depth : Nat) (place : List Nat) (w : Sweep) :
    ps.reverse.foldl (fun w p => w.push ⟨p, depth, place⟩) w =
      { w with pending := ps.map (⟨·, depth, place⟩) ++ w.pending } := by
  rw [List.foldl_reverse]
  induction ps with
  | nil => rfl
  | cons p ps ih =>
      rw [List.foldr_cons, ih]
      rfl

def sweepWork (g : Graph) (w : Sweep) : Nat :=
  g.room w.seen.expanded + w.pending.length

theorem sweepWork_sweepOne (g : Graph) (maxDepth : Number) (q : Pending) (w : Sweep) :
    g.sweepWork (g.sweepOne maxDepth q w) ≤ g.sweepWork w := by
  unfold sweepOne
  split
  · exact Nat.le_refl _
  · rename_i n hn
    split
    · exact Nat.le_refl _
    · rename_i hnew
      have hroom := room_cons hnew hn
      dsimp only
      split
      · simp only [sweepWork, Sweep.hang]
        omega
      · split
        · simp only [sweepWork, Sweep.hang]
          omega
        · rw [foldl_push]
          simp only [sweepWork, Sweep.hang, List.length_append, List.length_map]
          omega

def sweepStep (g : Graph) (maxDepth : Number) (w : Sweep) : Sweep :=
  match w.pending with
  | [] => w
  | q :: rest => g.sweepOne maxDepth q { w with pending := rest }

theorem sweepWork_sweepStep (g : Graph) (maxDepth : Number) {w : Sweep} (hw : w.pending ≠ []) :
    g.sweepWork (g.sweepStep maxDepth w) < g.sweepWork w := by
  obtain ⟨pending, top, s⟩ := w
  cases pending with
  | nil => exact absurd rfl hw
  | cons q rest =>
      have hone := sweepWork_sweepOne g maxDepth q ⟨rest, top, s⟩
      exact Nat.lt_of_le_of_lt hone (by simp [sweepWork])

def runSweep (g : Graph) (maxDepth : Number) (w : Sweep) : Sweep :=
  if w.pending = [] then w else g.runSweep maxDepth (g.sweepStep maxDepth w)
termination_by g.sweepWork w
decreasing_by exact sweepWork_sweepStep g maxDepth ‹_›

def sweep (g : Graph) (maxDepth : Number) (p : Nat) (s : Seen) : Option Trace × Seen :=
  let w := g.runSweep maxDepth ⟨[⟨p, 0, []⟩], [], s⟩
  (w.top.head?, w.seen)

variable {g : Graph} {maxDepth : Number} {depth : Nat} {expanded ids after : List Nat}
  {ts : List Trace} {n : Node} {q : Pending} {w : Sweep}

theorem sweepOne_missing (hq : g.get? q.value = none) : g.sweepOne maxDepth q w = w := by
  rw [sweepOne, hq]

theorem sweepOne_shut {cut : Cut} (hn : g.get? q.value = some n)
    (hcut : cutAt maxDepth q.depth w.seen.expanded n = some cut) :
    g.sweepOne maxDepth q w =
      { w.hang q (.node n (some cut) []) with seen := w.seen.shut n cut } := by
  obtain ⟨-, hid⟩ := get?_some hn
  rw [sweepOne, hn]
  cases cut with
  | repeated =>
      have hmem := cutAt_repeated.1 hcut
      rw [Seen.shut_repeated hmem]
      exact if_pos (hid ▸ hmem)
  | truncated =>
      obtain ⟨hnew, hinner, hdeep⟩ := cutAt_truncated.1 hcut
      rw [Seen.shut_truncated hnew]
      simp [← hid, hnew, hinner, hdeep, Sweep.hang]

theorem sweepOne_opened (hn : g.get? q.value = some n)
    (hcut : cutAt maxDepth q.depth w.seen.expanded n = none) :
    g.sweepOne maxDepth q w = ⟨n.parents.map
        (⟨·, q.depth + 1, q.into ++ [(listAt q.into w.top).length]⟩) ++ w.pending,
      modifyAt (· ++ [.node n none []]) q.into w.top,
      ⟨w.seen.expanded.insert n.id, w.seen.truncated⟩⟩ := by
  obtain ⟨-, hid⟩ := get?_some hn
  obtain ⟨hnew, hshallow⟩ := cutAt_none.1 hcut
  rw [sweepOne, hn, List.insert_of_not_mem hnew]
  dsimp only
  rw [if_neg (hid ▸ hnew), foldl_push]
  by_cases hleaf : n.parents = []
  · simp [hleaf, Sweep.hang, hid]
  · simp [hleaf, hshallow hleaf, Sweep.hang, hid]

theorem runSweep_cons (g : Graph) (maxDepth : Number) (q : Pending) (rest : List Pending)
    (top : List Trace) (s : Seen) : g.runSweep maxDepth ⟨q :: rest, top, s⟩ =
      g.runSweep maxDepth (g.sweepOne maxDepth q ⟨rest, top, s⟩) := by
  rw [runSweep, if_neg (List.cons_ne_nil q rest)]
  rfl

theorem runSweep_nil (g : Graph) (maxDepth : Number) (top : List Trace) (s : Seen) :
    g.runSweep maxDepth ⟨[], top, s⟩ = ⟨[], top, s⟩ := by
  rw [runSweep, if_pos rfl]

theorem runSweep_iterate (g : Graph) (maxDepth : Number) (w : Sweep) :
    (g.runSweep maxDepth w).pending = [] ∧
      ∃ k, (g.sweepStep maxDepth)^[k] w = g.runSweep maxDepth w := by
  fun_induction g.runSweep maxDepth w with
  | case1 w hw => exact ⟨hw, 0, rfl⟩
  | case2 w hw ih =>
      obtain ⟨hempty, k, hk⟩ := ih
      exact ⟨hempty, k + 1, hk⟩

theorem Unfolds.runSweep (h : g.Unfolds maxDepth depth expanded ids ts after) (place : List Nat)
    (rest : List Pending) (top : List Trace) (flag : Bool) :
    g.runSweep maxDepth ⟨ids.map (⟨·, depth, place⟩) ++ rest, top, ⟨expanded, flag⟩⟩ =
      g.runSweep maxDepth
        ⟨rest, modifyAt (· ++ ts) place top, ⟨after, flag || truncatedIn ts⟩⟩ := by
  induction h generalizing place rest top flag with
  | nil =>
      have hid : modifyAt (· ++ []) place top = top := by
        simpa [Function.id_def] using Trace.modifyAt_id place top
      rw [hid, truncatedIn, Trace.sightsOfAll, List.any_nil, Bool.or_false]
      rfl
  | missing hp _ ih =>
      rw [List.map_cons, List.cons_append, runSweep_cons, sweepOne_missing hp, ih]
  | shut hn hcut _ ih =>
      rw [List.map_cons, List.cons_append, runSweep_cons, sweepOne_shut hn hcut]
      refine (ih ..).trans ?_
      rw [Sweep.hang, Trace.modifyAt_concat, truncatedIn_shut, ← Bool.or_assoc]
  | opened hn hcut _ _ ihParents ih =>
      rw [List.map_cons, List.cons_append, runSweep_cons, sweepOne_opened hn hcut]
      -- its own list first, and then the list it stands in
      refine (ihParents ..).trans ?_
      rw [Trace.modifyAt_appended]
      refine (ih ..).trans ?_
      rw [Trace.modifyAt_concat, truncatedIn_opened, ← Bool.or_assoc, List.nil_append]

theorem exists_unfolds (g : Graph) (maxDepth : Number) (p : Nat) (expanded : List Nat) :
    ∃ ts after, g.Unfolds maxDepth 0 expanded [p] ts after := by
  cases hn : g.get? p with
  | none => exact ⟨[], expanded, .missing hn .nil⟩
  | some n =>
      obtain ⟨-, rfl⟩ := get?_some hn
      exact ⟨_, _, trace_unfolds maxDepth hn expanded⟩

theorem sweep_eq_retrace (g : Graph) (maxDepth : Number) :
    g.sweep maxDepth = g.retrace maxDepth := by
  funext p s
  obtain ⟨ts, after, h⟩ := g.exists_unfolds maxDepth p s.expanded
  have hrun : g.runSweep maxDepth ⟨[⟨p, 0, []⟩], [], s⟩ =
      ⟨[], ts, ⟨after, s.truncated || truncatedIn ts⟩⟩ :=
    (h.runSweep [] [] [] s.truncated).trans (runSweep_nil ..)
  rw [sweep, hrun, retrace, h.recount s.truncated]

theorem witness_eq_recursive (g : Graph) (maxDepth : Number) (roots : List Root) :
    (g.witness maxDepth roots, (g.witness maxDepth roots).isTruncated) =
        g.witnessBy (g.retrace maxDepth) maxDepth roots ∧
      g.witnessBy (g.sweep maxDepth) maxDepth roots =
        g.witnessBy (g.retrace maxDepth) maxDepth roots ∧
      ∀ w, (g.runSweep maxDepth w).pending = [] ∧
        ∃ k, (g.sweepStep maxDepth)^[k] w = g.runSweep maxDepth w := by
  refine ⟨g.witness_by_retrace maxDepth roots, ?_, g.runSweep_iterate maxDepth⟩
  rw [sweep_eq_retrace]

end Graph

end ToolGate
