import ToolGate.Proofs.Verdict.Agreement
import ToolGate.Verdict.Sink

namespace ToolGate

variable {x : Execution} {r : Request} {rule : ToolRule} {f : ClockFault} {text : String}

namespace Cascade

theorem checkContext_eq_none {p : Policy} : checkContext p rule r = none ↔
    ¬(p.strict ∧ ∃ i ∈ r.context, i ∈ rule.refusedContexts) := by
  unfold checkContext
  by_cases hstrict : p.strict <;> simp [hstrict]

/-- The call comes as far as the check of its authority, and there it takes the time to tell. -/
structure AsksTime (x : Execution) (r : Request) (rule : ToolRule) : Prop where
  entry : x.policy.rules.get? r.tool = some (.rule rule)
  authority : rule.authority ≠ []
  carried : ∀ a ∈ rule.argRules, r.arguments.has a.argument
  context : ¬(x.policy.strict ∧ ∃ i ∈ r.context, i ∈ rule.refusedContexts)

theorem bindRules_of_carried {rules : List ArgRule}
    (h : ∀ a ∈ rules, r.arguments.has a.argument) : ∃ bound, bindRules r rules = .ok bound := by
  cases hbound : bindRules r rules with
  | ok bound => exact ⟨bound, rfl⟩
  | error name =>
      obtain ⟨a, ha, -⟩ := bindRules_error hbound
      have hmissing : ¬r.arguments.has a.argument := by simpa using List.find?_some ha
      exact absurd (h a (List.mem_of_find?_eq_some ha)) hmissing

theorem judge_of_asksTime (h : AsksTime x r rule) (f : ClockFault) :
    judge x r (.error f) = .error f := by
  obtain ⟨bound, hbound⟩ := bindRules_of_carried h.carried
  have hauthority : rule.authority.isEmpty = false := by simpa using h.authority
  simp only [judge, h.entry, judgeRule, hbound, checkContext_eq_none.2 h.context, checkAuthority,
    hauthority]
  rfl

theorem judge_of_not_asksTime (h : ¬∃ rule, AsksTime x r rule) :
    ∃ d, ∀ now, judge x r now = .ok d := by
  unfold judge
  cases hentry : x.policy.rules.get? r.tool with
  | none => exact ⟨_, fun _ => rfl⟩
  | some entry =>
      cases entry with
      | malformed tool fault => exact ⟨_, fun _ => rfl⟩
      | rule rule =>
          dsimp only
          unfold judgeRule
          cases hbound : bindRules r rule.argRules with
          | error argument => exact ⟨_, fun _ => rfl⟩
          | ok bound =>
              cases hcontext : checkContext x.policy rule r with
              | some d => exact ⟨_, fun _ => rfl⟩
              | none =>
                  have hempty : rule.authority.isEmpty := by
                    by_contra hauthority
                    refine h ⟨rule, hentry, by simpa using hauthority, fun a ha => ?_,
                      checkContext_eq_none.1 hcontext⟩
                    obtain ⟨value, hvalue⟩ := carried_of_bound hbound ha
                    rw [Named.has, hvalue]
                    rfl
                  simp only [checkAuthority, hempty, if_true]
                  exact ⟨_, fun _ => rfl⟩

end Cascade

namespace Execution

def faulted (x : Execution) (r : Request) (text : String) : Evaluation where
  decision := .deny (.fault text)
  witness := some (.empty x.policy.budgets.witnessDepth)
  record :=
    { x.record r (.deny (.fault text)) with
      argumentTags :=
        (r.ordered.names.filter (· != Json.baseName)).map fun argument => (argument, ["*"]) }

theorem report_fault (x : Execution) (r : Request) (text : String) :
    x.report r (.deny (.fault text)) = x.faulted r text := by
  have htags : x.argumentTags r (.deny (.fault text)) =
      (r.ordered.names.filter (· != Json.baseName)).map fun argument => (argument, ["*"]) := by
    simp only [argumentTags, Named.names, List.filter_map, List.map_map, Function.comp_def]
    rfl
  simp only [faulted, ← htags]
  rfl

theorem evaluate_of_textless (h : Cascade.judge x r (.error f) = .error f) (hf : f.text? = none) :
    x.evaluate r (.error f) = .error .noText := by
  simp only [evaluate, decision, h, hf]
  rfl

theorem evaluate_of_text (h : Cascade.judge x r (.error f) = .error f) (hf : f.text? = some text) :
    x.evaluate r (.error f) = .ok (x.faulted r text) := by
  have hdecision : x.decision r (.error f) = .ok (.deny (.fault text)) :=
    decision_ok.2 (.inr ⟨f, text, h, hf, rfl⟩)
  rw [evaluate_of_decision hdecision, report_fault]

theorem transportCheck?_faulted (h : Cascade.AsksTime x r rule)
    (hwrite : rule.sideEffect = .externalWrite) (text : String) :
    ∃ c, (x.faulted r text).record.transportCheck? = some c ∧
      (c.passes ↔ r.redactionApplied = some true) := by
  have hclass : x.sideEffect? r.tool = some .externalWrite := by
    rw [sideEffect?, h.entry, ← hwrite]
  refine ⟨⟨x.id, r.callId, some (r.redactionApplied.getD false)⟩, ?_, ?_⟩
  · simp [faulted, Record.transportCheck?, record, hclass]
  · cases hflag : r.redactionApplied <;> simp [TransportCheck.passes]

end Execution

theorem fault_denies (x : Execution) (r : Request) (f : ClockFault) :
    (∀ rule, Cascade.AsksTime x r rule →
      Cascade.judge x r (.error f) = .error f ∧
        (f.text? = none → x.evaluate r (.error f) = .error .noText) ∧
        ∀ text, f.text? = some text → ∃ e, x.evaluate r (.error f) = .ok e ∧
          e.decision = .deny (.fault text) ∧
          e.record.reason = some .evaluationFault ∧
          e.witness = some (.empty x.policy.budgets.witnessDepth) ∧
          (e.record.argumentTags = (r.ordered.names.filter (· != Json.baseName)).map
            fun argument => (argument, ["*"])) ∧
          (rule.sideEffect = .externalWrite →
            ∃ c, e.record.transportCheck? = some c ∧
              (c.passes ↔ r.redactionApplied = some true))) ∧
      ((¬∃ rule, Cascade.AsksTime x r rule) → ∃ e, ∀ now, x.evaluate r now = .ok e) := by
  constructor
  · intro rule h
    have hjudge := Cascade.judge_of_asksTime h f
    refine ⟨hjudge, Execution.evaluate_of_textless hjudge, fun text hf => ?_⟩
    exact ⟨_, Execution.evaluate_of_text hjudge hf, rfl, rfl, rfl, rfl,
      fun hwrite => Execution.transportCheck?_faulted h hwrite text⟩
  · intro h
    obtain ⟨d, hd⟩ := Cascade.judge_of_not_asksTime h
    exact ⟨_, fun now => Execution.evaluate_of_decision (Execution.decision_ok.2 (.inl (hd now)))⟩

namespace Agreement

theorem send_asksTime : Cascade.AsksTime here send mailRule := by
  refine ⟨by decide +kernel, by simp [mailRule], by decide +kernel, ?_⟩
  rintro ⟨-, i, hi, -⟩
  cases hi

def copied : Request := { send with arguments := [("to", 4), (Json.baseName, 4)] }

theorem copied_asksTime : Cascade.AsksTime here copied mailRule := by
  refine ⟨by decide +kernel, by simp [mailRule], by decide +kernel, ?_⟩
  rintro ⟨-, i, hi, -⟩
  cases hi

end Agreement

open Agreement in
theorem fault_denies_send :
    (∃ e c, here.evaluate send (.error (.bare "stuck")) = .ok e ∧
      e.decision = .deny (.fault "stuck") ∧ e.record.transportCheck? = some c ∧ ¬c.passes) ∧
    here.evaluate send (.error .textless) = .error .noText ∧
    here.evaluate { send with tool := "read" } (.error .textless) =
      here.evaluate { send with tool := "read" } (.ok 5) := by
  have hread : ¬∃ rule, Cascade.AsksTime here { send with tool := "read" } rule := by
    rintro ⟨rule, hrule⟩
    have hnone : here.policy.rules.get? "read" = none := by decide +kernel
    cases hnone.symm.trans hrule.entry
  obtain ⟨-, -, htext⟩ := (fault_denies here send (.bare "stuck")).1 mailRule send_asksTime
  obtain ⟨-, htextless, -⟩ := (fault_denies here send .textless).1 mailRule send_asksTime
  obtain ⟨e, he, hdenied, -, -, -, htransport⟩ := htext "stuck" rfl
  obtain ⟨c, hc, hpasses⟩ := htransport rfl
  obtain ⟨e', he'⟩ := (fault_denies here _ .textless).2 hread
  refine ⟨⟨e, c, he, hdenied, hc, ?_⟩, htextless rfl, (he' _).trans (he' _).symm⟩
  rw [hpasses]
  exact nofun

open Agreement in
theorem not_fault_denies :
    (¬∀ (x : Execution) (r : Request) (f : ClockFault), ∃ e, x.evaluate r (.error f) = .ok e) ∧
      ¬∀ (x : Execution) (r : Request) (f : ClockFault) (rule : ToolRule) (e : Evaluation),
        Cascade.AsksTime x r rule → x.evaluate r (.error f) = .ok e →
          ∀ argument ∈ r.arguments.names, (argument, ["*"]) ∈ e.record.argumentTags := by
  constructor
  · intro h
    obtain ⟨e, he⟩ := h here send .textless
    have hjudge := Cascade.judge_of_asksTime send_asksTime .textless
    rw [Execution.evaluate_of_textless hjudge rfl] at he
    cases he
  · intro h
    have hjudge := Cascade.judge_of_asksTime copied_asksTime (.bare "stuck")
    have heval := Execution.evaluate_of_text hjudge rfl
    have hnamed : Json.baseName ∈ copied.arguments.names := by simp [copied, Named.names]
    have hlisted := h here copied _ mailRule _ copied_asksTime heval Json.baseName hnamed
    simp [Execution.faulted] at hlisted

end ToolGate
