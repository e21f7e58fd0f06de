import ToolGate.Proofs.Host.Run
import ToolGate.Proofs.Session.Operations
import ToolGate.Proofs.Verdict.Checks

namespace ToolGate

variable {id : String} {p : Policy} {t : Table}

namespace Cascade

theorem counts_settled (t : Table) (r : Request) (now : Number) (id : String) :
    counts t.settled r now id = counts t r now id := by
  rw [counts, counts, Table.validate_settled, Table.get?_settled]
  cases t.get? id <;> rfl

theorem covered_settled (t : Table) (r : Request) (now : Number) :
    covered t.settled r now = covered t r now := by
  have hcounts : counts t.settled r now = counts t r now := by
    funext id
    exact counts_settled t r now id
  have hget : t.settled.get? = fun id => (t.get? id).map Token.settled := by
    funext id
    exact Table.get?_settled t id
  rw [covered, hcounts, hget, ← List.map_filterMap, List.flatMap_map]
  rfl

theorem checkAuthority_settled (t : Table) (rule : ToolRule) (r : Request) (now : Reading) :
    checkAuthority t.settled rule r now = checkAuthority t rule r now := by
  simp only [checkAuthority, covered_settled]

end Cascade

theorem Execution.evaluate_settled (x : Execution) (r : Request) (now : Reading) :
    ({ x with table := x.table.settled } : Execution).evaluate r now = x.evaluate r now := by
  have hjudge : Cascade.judge { x with table := x.table.settled } r now =
      Cascade.judge x r now := by
    unfold Cascade.judge Cascade.judgeRule
    simp only [Cascade.checkAuthority_settled]
    rfl
  rw [evaluate, decision, hjudge]
  rfl

namespace ValueEvent

variable {g g' : Graph} {e : ValueEvent} {seals more : Seals} {n : Node}

theorem on_of_isPrefix (hmore : seals <+: more) (h : e.on seals g = .ok (n, g')) :
    e.on more g = .ok (n, g') := by
  rw [on_eq, Graph.insert_ok] at h ⊢
  obtain ⟨hid, hsize, hcount, hparents, hmark, hrest⟩ := h
  exact ⟨hid, hsize, hcount, hparents, Mark.admissible_of_isPrefix hmore hmark, hrest⟩

def replay (seals : Seals) (events : List ValueEvent) (g : Graph) : Except GraphFault Graph :=
  events.foldlM (fun g e => (e.on seals g).map Prod.snd) g

theorem replay_snoc {events : List ValueEvent} {start : Graph}
    (h : replay seals events start = .ok g) (he : e.on seals g = .ok (n, g')) :
    replay seals (events ++ [e]) start = .ok g' := by
  unfold replay at h ⊢
  rw [List.foldlM_append, h]
  simp [he, Except.map, bind, Except.bind, pure, Except.pure]

end ValueEvent

namespace Host

open ValueEvent (replay)

variable {Candidate : Type} {h h' : Host Candidate} {a : Act Candidate}

def Replayable (h : Host Candidate) : Prop :=
  ∀ seals, h.seals <+: seals →
    replay seals h.events (.empty h.execution.graph.budgets) = .ok h.execution.graph

theorem Step.replayable (hs : Step h a h') (hr : h.Replayable) : h'.Replayable := by
  intro seals hseals
  have hprefix := hs.seals_prefix.trans hseals
  cases hs with
  | @value e n g hon =>
      have hbudgets : g.budgets = h.execution.graph.budgets := ValueEvent.budgets_of_on hon
      have hbefore := hr seals hprefix
      rw [← hbudgets] at hbefore
      exact ValueEvent.replay_snoc hbefore (ValueEvent.on_of_isPrefix hprefix hon)
  | reset => rfl
  | _ => exact hr seals hprefix

theorem replayable_run (id : String) (p : Policy) (t : Table) (acts : List (Act Candidate)) :
    ((start id p t).run acts).Replayable := by
  refine run_induction (P := fun _ => Replayable) ?_ ?_ acts
  · intro seals _
    rfl
  · intro acts a h' hr hs
    exact hs.replayable hr

theorem evaluate_after_restore (ht : t.Reached) (acts : List (Act Candidate)) (held : List String)
    (instant : Number) {seals : Seals} (hseals : ((start id p t).run acts).seals <+: seals) :
    ∃ standing x g,
      Execution.restore id p (Snapshot.write ((start id p t).run acts).execution.table) held
        (.ok instant) = .ok (standing, x) ∧
      replay seals ((start id p t).run acts).events x.graph = .ok g ∧
      ∀ r now, ({ x with graph := g } : Execution).evaluate r now =
        ((start id p t).run acts).execution.evaluate r now := by
  have hproper := proper_run id p t acts
  have hsound := (table_run id p ht acts).sound
  have hreplay := replayable_run id p t acts seals hseals
  generalize (start id p t).run acts = h at *
  rw [hproper.budgets] at hreplay
  refine ⟨_, _, _, Execution.restore_write hsound _ _ held instant, hreplay, fun r now => ?_⟩
  have hsame : ({ Execution.start id p h.execution.table.settled with
      graph := h.execution.graph } : Execution) =
        { h.execution with table := h.execution.table.settled } := by
    rw [← hproper.execution, ← hproper.policy]
    rfl
  rw [hsame, Execution.evaluate_settled]

namespace Replay

def postRule : ToolRule :=
  ⟨"post", .externalWrite, ["blog"], [⟨"text", some (.verified "clean"), []⟩], [],
    .requireConfirmation⟩

def policy : Policy :=
  ⟨"blog", false, true, ⟨10, 4, 8, 4⟩, [("post", .rule postRule)]⟩

def isClean : Verifier String := fun candidate => .ok (candidate == "a draft")

def clean (parents : List Number) : Proposal :=
  ⟨.sealed ⟨0, "clean"⟩, .ofTags ["draft"] false, parents, literalKind⟩

def clock : Clock := fun _ => .ok 2

def ids : IdSource := ⟨fun n => toString n, 0⟩

def mint (id : String) : Act String :=
  .mint clock ids ⟨some id, "host", "agent", ["blog"], ⟨none, some 9⟩⟩

def session : List (Act String) :=
  [.register 0 "clean" isClean, .verify 0 "clean" "a draft", .value (.create (clean [])), .reset,
    mint "writer", mint "guest", .value (.record 3 (clean [])), .value (.create (clean [3])),
    .revoke "guest"]

def post : Request :=
  ⟨"c", "post", [("text", 4)], [], ["guest", "writer"], some "agent", none, none⟩

def table : Table := ((start "e" policy .empty).run session).execution.table

end Replay

open Replay in
theorem evaluate_after_restore_of_post :
    ∃ standing x g,
      Execution.restore "e" policy (Snapshot.write table) ["writer", "guest"] (.ok 4) =
        .ok (standing, x) ∧
      replay ["clean", "clean"] ((start "e" policy .empty).run session).events x.graph = .ok g ∧
      ∃ e, ({ x with graph := g } : Execution).evaluate post (.ok 5) = .ok e ∧
        e.decision = .requireConfirmation := by
  have hseals : ((start "e" policy .empty).run session).seals <+: ["clean", "clean"] := by
    decide +kernel
  obtain ⟨standing, x, g, hrestore, hreplay, hsame⟩ :=
    evaluate_after_restore .empty session ["writer", "guest"] 4 hseals
  have hdecision : ((start "e" policy .empty).run session).execution.decision post (.ok 5) =
      .ok .requireConfirmation := by
    decide +kernel
  have he := Execution.evaluate_of_decision hdecision
  exact ⟨standing, x, g, hrestore, hreplay, _, (hsame post (.ok 5)).trans he, rfl⟩

end Host

end ToolGate
