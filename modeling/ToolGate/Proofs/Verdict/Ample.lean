import ToolGate.Proofs.Policy.Budgets
import ToolGate.Proofs.Provenance.Closures
import ToolGate.Proofs.Provenance.Invariant
import ToolGate.Proofs.Verdict.Explanation
import ToolGate.Proofs.Verdict.Tagging

namespace ToolGate

namespace Graph

variable {g : Graph} {limit value : Number} {n : Node}

theorem card_ancestry_le (g : Graph) (v : Nat) : (g.ancestry v).card ≤ g.size := by
  refine le_trans (Finset.card_le_card fun n hn => ?_) (List.toFinset_card_le g.nodes)
  exact List.mem_toFinset.2 (mem_ancestry.1 hn).1

theorem self_mem_ancestry (hn : g.resolve? value = some n) : n ∈ g.ancestry n.id :=
  mem_ancestry.2 ⟨(get?_some (resolve?_some hn)).1, .refl⟩

theorem Reached.covers (hg : g.Reached) (hlimit : limit.isInteger) (hle : g.budgets.values ≤ limit)
    (hn : g.resolve? value = some n) : ¬limit.ltNat (g.ancestry n.id).card := by
  intro hover
  have hpos : 0 < (g.ancestry n.id).card := Finset.card_pos.2 ⟨n, self_mem_ancestry hn⟩
  obtain ⟨k, hk⟩ := Nat.exists_eq_succ_of_ne_zero (Nat.ne_of_gt hpos)
  have hroom : k < g.size := Nat.lt_of_lt_of_le (by omega) (g.card_ancestry_le n.id)
  rw [hk] at hover
  -- the last of these values came in when so many were stored already
  have hfull : g.budgets.values.leNat k :=
    Number.leNat_of_le hle (Number.leNat_of_ltNat_succ hlimit hover)
  exact hg.within.values k hroom hfull

theorem Reached.closure_known (hg : g.Reached) (hlimit : limit.isInteger)
    (hle : g.budgets.values ≤ limit) (hn : g.resolve? value = some n) :
    ∃ c, g.closure limit value = .ok c ∧ IsClosure c (g.ancestry n.id) := by
  rcases hg.layered.closure_eq hlimit hn with ⟨hover, -⟩ | ⟨-, l, hc, -⟩
  · exact absurd hover (hg.covers hlimit hle hn)
  · exact ⟨_, hc, hg.layered.isClosure hn hc⟩

theorem Reached.shortfall_unknown (hg : g.Reached) (hlimit : limit.isInteger)
    (hle : g.budgets.values ≤ limit) {s : Shortfall} (hs : g.closure limit value = .error s) :
    s = .unknownValue value := by
  cases hn : g.resolve? value with
  | none => exact Except.error.inj (hs.symm.trans (closure_unknown hn))
  | some n =>
      obtain ⟨c, hc, -⟩ := hg.closure_known hlimit hle hn
      cases hc.symm.trans hs

end Graph

variable {x : Execution} {r : Request} {now : Reading}

theorem Denial.reason_eq_budgetExceeded {d : Denial} (h : d.reason = .budgetExceeded) :
    ∃ argument value s, d = .shortfall argument value s ∧ s.isOverBudget := by
  cases d with
  | shortfall argument value s =>
      refine ⟨argument, value, s, rfl, ?_⟩
      by_contra hnot
      simp [reason, hnot] at h
  | _ => cases h

namespace Execution

def after (x : Execution) (calls : List Graph.Call) : Execution :=
  { x with graph := x.graph.run calls }

structure Ample (x : Execution) : Prop where
  reached : x.graph.Reached
  steps : x.policy.budgets.closureSteps.isInteger
  enough : x.graph.budgets.values ≤ x.policy.budgets.closureSteps

theorem ample_after {p : Policy} (hp : p.Compiled)
    (hle : p.budgets.values ≤ p.budgets.closureSteps) (id : String) (t : Table)
    (calls : List Graph.Call) : ((start id p t).after calls).Ample := by
  obtain ⟨hreached, hbudgets⟩ :=
    (Graph.Reached.empty ⟨p.budgets.values, p.budgets.parentsPerValue⟩).run calls
  refine ⟨hreached, hp.closureSteps, ?_⟩
  have hvalues : ((start id p t).after calls).graph.budgets.values = p.budgets.values :=
    congrArg GraphBudgets.values hbudgets
  rw [hvalues]
  exact hle

def IsKnown (x : Execution) (value : Number) (n : Node) (c : Closure) : Prop :=
  x.closure value = .ok c ∧ Graph.IsClosure c (x.graph.ancestry n.id)

variable {value : Number} {n : Node}

theorem Ample.known (h : x.Ample) (hn : x.graph.resolve? value = some n) :
    ∃ c, x.IsKnown value n c :=
  h.reached.closure_known h.steps h.enough hn

theorem Ample.not_budgetExceeded (h : x.Ample) {d : Decision} (hd : x.decision r now = .ok d) :
    d.reason? ≠ some .budgetExceeded := by
  intro hreason
  cases d with
  | deny d =>
      obtain ⟨argument, value, s, rfl, hover⟩ :=
        Denial.reason_eq_budgetExceeded (Option.some.inj hreason)
      obtain ⟨rule, -, hdenied⟩ := deniedBy_of_argument hd rfl
      cases h.reached.shortfall_unknown h.steps h.enough hdenied.shortfall_inv
      cases hover
  | _ => cases hreason

theorem Ample.exhibit (h : x.Ample) {d : Decision} {w : Witness} (hw : x.witness r d = some w)
    {e : WitnessArgument} (he : e ∈ w.arguments) (hn : x.graph.resolve? e.value = some n) :
    ∃ c shown, x.IsKnown e.value n c ∧ e.exhibit = some shown ∧ shown.closure = c.label := by
  obtain ⟨c, hknown⟩ := h.known hn
  obtain ⟨-, hshown⟩ := mem_witness_label hw he
  rw [hn, Root.label, hknown.1] at hshown
  obtain ⟨shown, hexhibit, hclosure⟩ := Option.map_eq_some_iff.1 hshown
  exact ⟨c, shown, hknown, hexhibit, hclosure⟩

theorem Ample.tags (h : x.Ample) {d : Decision} (hreason : d.reason? ≠ some .evaluationFault)
    {argument : String} {tags : List String} (hmem : (argument, tags) ∈ x.argumentTags r d) :
    ∃ value, (argument, value) ∈ r.arguments ∧ ∀ n, x.graph.resolve? value = some n →
      ∃ c, x.IsKnown value n c ∧ tags = c.label.confidentiality.names := by
  rw [argumentTags_of_sound hreason] at hmem
  obtain ⟨⟨name, value⟩, hordered, heq⟩ := List.mem_map.1 hmem
  cases heq
  refine ⟨value, mem_indexFirst.1 (List.mem_filter.1 hordered).1, fun n hn => ?_⟩
  obtain ⟨c, hknown⟩ := h.known hn
  refine ⟨c, hknown, ?_⟩
  rw [hknown.1]
  rfl

end Execution

theorem ample_budgets {p : Policy} (hp : p.Compiled)
    (hle : p.budgets.values ≤ p.budgets.closureSteps) (id : String) (t : Table)
    (calls : List Graph.Call) (r : Request) (now : Reading) :
    let x := (Execution.start id p t).after calls
    ∀ v, x.evaluate r now = .ok v → v.decision.reason? ≠ some .budgetExceeded ∧
      (v.decision.reason? ≠ some .evaluationFault →
        (∀ w, v.witness = some w → ∀ e ∈ w.arguments,
          ∀ n, x.graph.resolve? e.value = some n → ∃ c shown, x.IsKnown e.value n c ∧
            e.exhibit = some shown ∧ shown.closure = c.label) ∧
        ∀ argument tags, (argument, tags) ∈ v.record.argumentTags →
          ∃ value, (argument, value) ∈ r.arguments ∧ ∀ n, x.graph.resolve? value = some n →
            ∃ c, x.IsKnown value n c ∧ tags = c.label.confidentiality.names) := by
  have hample := Execution.ample_after hp hle id t calls
  intro x v hv
  refine ⟨hample.not_budgetExceeded (Execution.evaluate_ok.1 hv).1, fun hreason => ⟨?_, ?_⟩⟩
  · intro w hw e he n hn
    rw [← Execution.witness_of_evaluate hv] at hw
    exact hample.exhibit hw he hn
  · intro argument tags hmem
    rw [← Execution.record_argumentTags hv] at hmem
    exact hample.tags hreason hmem

namespace Matched

def document : Json :=
  .obj
    [("schema_version", .num 1), ("policy_name", .str "mail"), ("default_action", .str "Deny"),
      ("strict_mode", .bool true),
      ("budgets", .obj
        [("max_values", .num 3), ("max_parents_per_value", .num 4), ("max_closure_steps", .num 3),
          ("max_witness_depth", .num 4)]),
      ("tools", .arr
        [.obj
          [("tool", .str "send"), ("side_effect_class", .str "ExternalWrite"),
            ("arg_rules", .arr [.obj [("arg", .str "to"), ("requires_integrity", .str "Trusted")]]),
            ("default_decision", .str "Allow")]])]

def policy : Policy :=
  ⟨"mail", false, true, ⟨3, 4, 3, 4⟩,
    [("send", .rule ⟨"send", .externalWrite, [], [⟨"to", some .trusted, []⟩], [], .allow⟩)]⟩

open Graph.Crowded (literal)

def page : Proposal := ⟨.plain .untrusted, .ofTags ["web"] false, [], literalKind⟩

def calls : List Graph.Call :=
  [.create [] (literal []), .create [] (literal [7]), .reset, .create [] page,
    .record [] 5 (literal [1]), .record [] 9 (literal [5]), .create [] (literal [])]

def full : Execution := (Execution.start "e" policy .empty).after calls

def recipient : Node := ⟨9, .plain .trusted, .ofTags [] false, [5], literalKind⟩

def send : Request := ⟨"c", "send", [("to", 9)], [], [], none, none, none⟩

end Matched

open Matched in
theorem ample_budgets_of_full :
    full.graph.size = 3 ∧
      full.decision send (.ok 0) = .ok (.deny (.integrity "to" 9 .untrusted .trusted)) ∧
      ∃ c, full.IsKnown 9 recipient c ∧ c.label.confidentiality.names = ["web"] := by
  have hp : policy.Compiled := ⟨document, by decide +kernel⟩
  have hle : policy.budgets.values ≤ policy.budgets.closureSteps := by decide +kernel
  have hsize : full.graph.size = 3 := by decide +kernel
  have hdecision : full.decision send (.ok 0) =
      .ok (.deny (.integrity "to" 9 .untrusted .trusted)) := by
    decide +kernel
  have hv := Execution.evaluate_of_decision hdecision
  have hrecipient : full.graph.resolve? 9 = some recipient := by decide +kernel
  have hnames : Execution.tagNames (full.closure 9) = ["web"] := by decide +kernel
  have hbound : send.arguments = [("to", 9)] := rfl
  have hlisted :=
    Execution.mem_argumentTags (v := 9) hv nofun (hbound ▸ List.mem_cons_self) (by decide)
  rw [hnames] at hlisted
  obtain ⟨-, hshown⟩ := ample_budgets hp hle "e" .empty calls send (.ok 0) _ hv
  obtain ⟨value, hvalue, htags⟩ := (hshown nofun).2 "to" ["web"] hlisted
  rw [hbound, List.mem_singleton, Prod.mk.injEq] at hvalue
  obtain rfl : 9 = value := hvalue.2.symm
  obtain ⟨c, hknown, hsame⟩ := htags recipient hrecipient
  exact ⟨hsize, hdecision, c, hknown, hsame.symm⟩

end ToolGate
