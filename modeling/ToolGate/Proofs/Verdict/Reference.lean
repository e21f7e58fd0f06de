import ToolGate.Proofs.Policy.Budgets
import ToolGate.Proofs.Provenance.Ancestry
import ToolGate.Proofs.Verdict.Checks
import ToolGate.Verdict.Evaluation

namespace ToolGate

namespace Reference

variable (x : Execution) (r : Request)

def common (n : Node) (s : Finset Node) : Integrity :=
  if ∀ m ∈ s, m.label.integrity = n.label.integrity then n.label.integrity else .untrusted

def Covers (now : Number) (resource : String) : Prop :=
  ∃ id ∈ r.held, ∃ k, x.table.get? id = some k ∧ x.table.validate id now = .valid ∧
    (∀ s, r.subject = some s → k.subject = s) ∧ resource ∈ k.scope

/-- What `judge` has against the ancestry of a value that is known and has no more ancestors than
the budget allows. -/
noncomputable def objection (a : ArgRule) (value : Number)
    (judge : Node → Finset Node → Option Denial) : Option Denial :=
  match x.graph.resolve? value with
  | none => some (.shortfall a.argument value (.unknownValue value))
  | some n =>
      if x.policy.budgets.closureSteps.ltNat (x.graph.ancestry n.id).card then
        some (.shortfall a.argument value (.overBudget value x.policy.budgets.closureSteps))
      else judge n (x.graph.ancestry n.id)

noncomputable def ofIntegrity (a : ArgRule) (value : Number) : Option Denial :=
  a.requires.bind fun required =>
    objection x a value fun n ancestry =>
      if ∀ m ∈ ancestry, m.label.integrity.satisfies required then none
      else some (.integrity a.argument value (common n ancestry) required)

open Classical in
noncomputable def carried (forbidden : List String) (s : Finset Node) : List String :=
  forbidden.filter fun tag => ∃ m ∈ s, m.confidentiality.carries tag

noncomputable def ofConfidentiality (a : ArgRule) (value : Number) : Option Denial :=
  if a.forbids = [] then none
  else
    objection x a value fun _ ancestry =>
      if carried a.forbids ancestry = [] then none
      else some (.forbidden a.argument value (carried a.forbids ancestry))

def ofContext (rule : ToolRule) : Option Denial :=
  if x.policy.strict then
    (r.context.find? (· ∈ rule.refusedContexts)).map (.refusedContext rule.tool)
  else none

open Classical in
noncomputable def missing (now : Number) (rule : ToolRule) : List String :=
  rule.authority.filter fun resource => ¬Covers x r now resource

noncomputable def ofAuthority (now : Number) (rule : ToolRule) : Option Denial :=
  if missing x r now rule = [] then none else some (.uncovered (missing x r now rule))

def firstArgument (rule : ToolRule) (object : ArgRule → Number → Option Denial) : Option Denial :=
  rule.argRules.findSome? fun a => (r.arguments.get? a.argument).bind (object a)

noncomputable def ofRule (now : Number) (rule : ToolRule) : Decision :=
  match rule.argRules.find? (!r.arguments.has ·.argument) with
  | some a => .deny (.missingArgument rule.tool a.argument)
  | none =>
      match [ofContext x r rule, ofAuthority x r now rule, firstArgument r rule (ofIntegrity x),
        firstArgument r rule (ofConfidentiality x)].findSome? id with
      | some d => .deny d
      | none =>
          match rule.defaultAction with
          | .allow => .allow
          | .requireConfirmation => .requireConfirmation
          | .requireDraft => .requireDraft
          | .deny => .deny (.byDefault rule.tool)

noncomputable def decision (now : Number) : Decision :=
  match x.policy.rules.get? r.tool with
  | none => if x.policy.allowsUnlisted then .allow else .deny (.unlisted r.tool)
  | some (.malformed tool fault) => .deny (.malformed tool fault)
  | some (.rule rule) => ofRule x r now rule

end Reference

namespace Cascade

variable {x : Execution} {r : Request}

theorem checkContext_eq (rule : ToolRule) :
    checkContext x.policy rule r = Reference.ofContext x r rule := by
  have hlisted : (fun i => decide (i ∈ rule.refusedContexts)) = rule.refusedContexts.contains := by
    funext i
    simp
  rw [checkContext, Reference.ofContext, hlisted]

theorem checkAuthority_eq (now : Number) (rule : ToolRule) :
    checkAuthority x.table rule r (.ok now) = .ok (Reference.ofAuthority x r now rule) := by
  have hmissing : rule.authority.filter (!(covered x.table r now).contains ·) =
      Reference.missing x r now rule := by
    refine List.filter_congr fun resource _ => ?_
    have hcovered : resource ∈ covered x.table r now ↔ Reference.Covers x r now resource :=
      mem_covered
    by_cases hmem : resource ∈ covered x.table r now
    · simp [hmem, hcovered.1 hmem]
    · have hnot : ¬Reference.Covers x r now resource := fun h => hmem (hcovered.2 h)
      simp [hmem, hnot]
  simp only [checkAuthority, Except.map, Reference.ofAuthority, hmissing, List.isEmpty_iff]
  split
  · rename_i hnone
    simp [Reference.missing, hnone]
  · rfl

theorem objection_eq (hp : x.policy.Compiled) (hg : x.graph.Reached) {a : ArgRule} {value : Number}
    {check : Closure → Option Denial} {judge : Node → Finset Node → Option Denial}
    (h : ∀ n c, Graph.Sums n (x.graph.ancestry n.id) c.label →
      check c = judge n (x.graph.ancestry n.id)) :
    (match x.closure value with
      | .error s => some (.shortfall a.argument value s)
      | .ok c => check c) = Reference.objection x a value judge := by
  unfold Reference.objection Execution.closure
  cases hn : x.graph.resolve? value with
  | none => rw [Graph.closure_unknown hn]
  | some n =>
      rcases hg.layered.closure_eq hp.closureSteps hn with ⟨hover, hc⟩ | ⟨hover, l, hc, hsums⟩
      · simp [hc, hover]
      · simp only [hc, hover, h n ⟨l, _⟩ hsums]
        rfl

theorem checkIntegrityOf_eq (hp : x.policy.Compiled) (hg : x.graph.Reached) (a : ArgRule)
    (value : Number) : checkIntegrityOf x (a, value) = Reference.ofIntegrity x a value := by
  simp only [checkIntegrityOf, Reference.ofIntegrity]
  cases a.requires with
  | none => rfl
  | some required =>
      rw [Option.bind_some]
      refine objection_eq hp hg fun n c hsums => ?_
      have hcommon : Reference.common n (x.graph.ancestry n.id) = c.label.integrity :=
        hsums.integrity.symm
      rw [hcommon]
      exact ite_congr (propext (hsums.satisfies required)) (fun _ => rfl) fun _ => rfl

theorem checkConfidentialityOf_eq (hp : x.policy.Compiled) (hg : x.graph.Reached) (a : ArgRule)
    (value : Number) :
    checkConfidentialityOf x (a, value) = Reference.ofConfidentiality x a value := by
  simp only [checkConfidentialityOf, Reference.ofConfidentiality, List.isEmpty_iff]
  split
  · rfl
  · refine objection_eq hp hg fun n c hsums => ?_
    have hpresent : c.label.confidentiality.present a.forbids =
        Reference.carried a.forbids (x.graph.ancestry n.id) := by
      refine List.filter_congr fun tag _ => ?_
      rw [Bool.eq_iff_iff, hsums.carries tag, decide_eq_true_iff]
    rw [hpresent]
    cases Reference.carried a.forbids (x.graph.ancestry n.id) <;> rfl

theorem first_of_four (a b c d : Option Denial) :
    [a, b, c, d].findSome? id = a.or ((b.or c).or d) := by
  cases a <;> cases b <;> cases c <;> cases d <;> rfl

theorem judgeRule_eq (hp : x.policy.Compiled) (hg : x.graph.Reached) (now : Number)
    (rule : ToolRule) : judgeRule x rule r (.ok now) = .ok (Reference.ofRule x r now rule) := by
  unfold judgeRule Reference.ofRule
  cases hbound : bindRules r rule.argRules with
  | error name =>
      obtain ⟨a, ha, rfl⟩ := bindRules_error hbound
      rw [ha]
  | ok bound =>
      obtain ⟨hcarried, hfirst⟩ := bindRules_ok hbound
      simp only [hcarried, checkContext_eq, checkAuthority_eq, first_of_four]
      cases Reference.ofContext x r rule with
      | some d => rfl
      | none =>
          simp only [Except.map, conclude, hfirst, checkIntegrityOf_eq hp hg,
            checkConfidentialityOf_eq hp hg, Option.none_or]
          rfl

theorem judge_eq (hp : x.policy.Compiled) (hg : x.graph.Reached) (r : Request) (now : Number) :
    judge x r (.ok now) = .ok (Reference.decision x r now) := by
  unfold judge Reference.decision
  cases x.policy.rules.get? r.tool with
  | none => rfl
  | some entry =>
      cases entry with
      | malformed tool fault => rfl
      | rule rule => exact judgeRule_eq hp hg now rule

end Cascade

theorem decision_eq_reference {x : Execution} (hp : x.policy.Compiled) (hg : x.graph.Reached)
    (r : Request) (now : Number) :
    ∃ e, x.evaluate r (.ok now) = .ok e ∧ e.decision = Reference.decision x r now := by
  have hdecision : x.decision r (.ok now) = .ok (Reference.decision x r now) :=
    Execution.decision_ok.2 (.inl (Cascade.judge_eq hp hg r now))
  exact ⟨_, Execution.evaluate_of_decision hdecision, rfl⟩

namespace Reference

def mailDocument : Json :=
  .obj
    [("schema_version", .num 1), ("policy_name", .str "mail"), ("default_action", .str "Deny"),
      ("strict_mode", .bool true),
      ("budgets", .obj
        [("max_values", .num 10), ("max_parents_per_value", .num 4), ("max_closure_steps", .num 8),
          ("max_witness_depth", .num 4)]),
      ("tools", .arr
        [.obj
          [("tool", .str "send"), ("side_effect_class", .str "ExternalWrite"),
            ("arg_rules", .arr [.obj [("arg", .str "to"), ("requires_integrity", .str "Trusted")]]),
            ("default_decision", .str "RequireConfirmation")]])]

def mailPolicy : Policy :=
  ⟨"mail", false, true, ⟨10, 4, 8, 4⟩,
    [("send", .rule
      ⟨"send", .externalWrite, [], [⟨"to", some .trusted, []⟩], [], .requireConfirmation⟩)]⟩

def instruction : Node := ⟨1, .plain .trusted, .ofTags [] false, [], "literal"⟩

def page : Node := ⟨2, .plain .untrusted, .ofTags ["web"] false, [], "literal"⟩

def recipient : Node := ⟨3, .plain .trusted, .ofTags [] false, [1, 2], "extract"⟩

def mail : Execution :=
  ⟨"e", mailPolicy, ⟨⟨10, 4⟩, [recipient, page, instruction]⟩, .empty⟩

def send : Request := ⟨"c", "send", [("to", 3)], [], [], none, none, none⟩

theorem mailPolicy_compiled : mailPolicy.Compiled :=
  ⟨mailDocument, by decide +kernel⟩

theorem mailGraph_reached : mail.graph.Reached :=
  ((Graph.Reached.empty ⟨10, 4⟩ |>.add instruction (by decide +kernel)).add page
    (by decide +kernel)).add recipient (by decide +kernel)

end Reference

theorem decision_of_mixed_ancestry :
    Reference.mail.policy.Compiled ∧ Reference.mail.graph.Reached ∧
      Reference.decision Reference.mail Reference.send 0 =
        .deny (.integrity "to" 3 .untrusted .trusted) := by
  have hp : Reference.mail.policy.Compiled := Reference.mailPolicy_compiled
  have hg : Reference.mail.graph.Reached := Reference.mailGraph_reached
  refine ⟨hp, hg, ?_⟩
  obtain ⟨e, he, hdecision⟩ := decision_eq_reference hp hg Reference.send 0
  have hjudged : (Reference.mail.evaluate Reference.send (.ok 0)).map Evaluation.decision =
      .ok (.deny (.integrity "to" 3 .untrusted .trusted)) := by
    decide +kernel
  rw [he] at hjudged
  rw [← hdecision]
  exact Except.ok.inj hjudged

end ToolGate
