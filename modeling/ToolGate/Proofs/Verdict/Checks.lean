import ToolGate.Proofs.Steps
import ToolGate.Verdict.Evaluation

namespace ToolGate

namespace Cascade

variable {x : Execution} {r : Request} {rule : ToolRule} {now : Reading}

theorem bindRules_error {rules : List ArgRule} {name : String}
    (h : bindRules r rules = .error name) :
    ∃ a, rules.find? (!r.arguments.has ·.argument) = some a ∧ a.argument = name := by
  induction rules with
  | nil => cases h
  | cons a rest ih =>
      rw [bindRules] at h
      split at h
      · rename_i hnone
        cases h
        exact ⟨a, by simp [Named.has, hnone], rfl⟩
      · rename_i value hvalue
        cases hrest : bindRules r rest with
        | error other =>
            rw [hrest] at h
            cases h
            obtain ⟨b, hb, hname⟩ := ih hrest
            exact ⟨b, by simpa [Named.has, hvalue] using hb, hname⟩
        | ok bound =>
            rw [hrest] at h
            cases h

theorem bindRules_ok {rules : List ArgRule} {bound : List BoundRule}
    (h : bindRules r rules = .ok bound) :
    rules.find? (!r.arguments.has ·.argument) = none ∧
      ∀ f : BoundRule → Option Denial, bound.findSome? f =
        rules.findSome? fun a => (r.arguments.get? a.argument).bind fun value => f (a, value) := by
  induction rules generalizing bound with
  | nil =>
      cases h
      exact ⟨rfl, fun f => rfl⟩
  | cons a rest ih =>
      rw [bindRules] at h
      split at h
      · cases h
      · rename_i value hvalue
        obtain ⟨others, hothers, hbound⟩ := bind_ok.1 h
        rw [← pure_ok.1 hbound]
        obtain ⟨hcarried, hsame⟩ := ih hothers
        refine ⟨by simpa [Named.has, hvalue] using hcarried, fun f => ?_⟩
        rw [List.findSome?_cons, List.findSome?_cons, hvalue, Option.bind_some, hsame f]

theorem mem_bound {rules : List ArgRule} {bound : List BoundRule}
    (h : bindRules r rules = .ok bound) {a : ArgRule} {value : Number} :
    (a, value) ∈ bound ↔ a ∈ rules ∧ r.arguments.get? a.argument = some value := by
  induction rules generalizing bound with
  | nil =>
      cases h
      simp
  | cons b rest ih =>
      rw [bindRules] at h
      split at h
      · cases h
      · rename_i other hother
        obtain ⟨others, hothers, hbound⟩ := bind_ok.1 h
        rw [← pure_ok.1 hbound, List.mem_cons, List.mem_cons, ih hothers, Prod.mk.injEq]
        constructor
        · rintro (⟨rfl, rfl⟩ | ⟨ha, hvalue⟩)
          · exact ⟨.inl rfl, hother⟩
          · exact ⟨.inr ha, hvalue⟩
        · rintro ⟨rfl | ha, hvalue⟩
          · exact .inl ⟨rfl, Option.some_inj.1 (hvalue.symm.trans hother)⟩
          · exact .inr ⟨ha, hvalue⟩

theorem carried_of_bound {rules : List ArgRule} {bound : List BoundRule}
    (h : bindRules r rules = .ok bound) {a : ArgRule} (ha : a ∈ rules) :
    ∃ value, r.arguments.get? a.argument = some value := by
  have hnone := (bindRules_ok h).1
  rw [List.find?_eq_none] at hnone
  exact Option.ne_none_iff_exists'.1 (by simpa [Named.has] using hnone a ha)

theorem mem_covered {t : Table} {now : Number} {resource : String} :
    resource ∈ covered t r now ↔
      ∃ id ∈ r.held, ∃ k, t.get? id = some k ∧ t.validate id now = .valid ∧
        (∀ s, r.subject = some s → k.subject = s) ∧ resource ∈ k.scope := by
  simp only [covered, List.mem_flatMap, List.mem_filterMap, List.mem_filter, counts,
    Bool.and_eq_true, beq_iff_eq, Option.any_eq_true, Option.all_eq_true]
  constructor
  · rintro ⟨k, ⟨id, ⟨hid, hvalid, k', hk', hsubject⟩, hk⟩, hscope⟩
    cases hk.symm.trans hk'
    exact ⟨id, hid, k, hk, hvalid, fun s hs => (hsubject s hs).symm, hscope⟩
  · rintro ⟨id, hid, k, hk, hvalid, hsubject, hscope⟩
    exact ⟨k, ⟨id, ⟨hid, hvalid, k, hk, fun s hs => (hsubject s hs).symm⟩, hk⟩, hscope⟩

theorem bindRules_congr {s : Request} (h : s.arguments = r.arguments) (rules : List ArgRule) :
    bindRules s rules = bindRules r rules := by
  induction rules with
  | nil => rfl
  | cons a rest ih => rw [bindRules, bindRules, h, ih]

/-- What stands behind a call that is left to the default decision of its rule. -/
structure Cleared (x : Execution) (rule : ToolRule) (r : Request) (now : Reading)
    (bound : List BoundRule) : Prop where
  carried : bindRules r rule.argRules = .ok bound
  context : checkContext x.policy rule r = none
  authority : checkAuthority x.table rule r now = .ok none
  integrity : ∀ b ∈ bound, checkIntegrityOf x b = none
  confidentiality : ∀ b ∈ bound, checkConfidentialityOf x b = none

theorem Cleared.judgeRule {bound : List BoundRule} (h : Cleared x rule r now bound) :
    judgeRule x rule r now = .ok (byDefault rule) := by
  have hintegrity := List.findSome?_eq_none_iff.2 h.integrity
  have hconfidentiality := List.findSome?_eq_none_iff.2 h.confidentiality
  simp only [Cascade.judgeRule, h.carried, h.context, h.authority, Except.map, conclude,
    hintegrity, hconfidentiality, Option.or_none]

theorem judgeRule_ok {d : Decision} (h : judgeRule x rule r now = .ok d) :
    (∃ name, bindRules r rule.argRules = .error name ∧
      d = .deny (.missingArgument rule.tool name)) ∨
    ∃ bound, bindRules r rule.argRules = .ok bound ∧
      ((∃ denial, checkContext x.policy rule r = some denial ∧ d = .deny denial) ∨
        checkContext x.policy rule r = none ∧ ∃ uncovered,
          checkAuthority x.table rule r now = .ok uncovered ∧
            d = conclude x rule bound uncovered) := by
  unfold judgeRule at h
  cases hbound : bindRules r rule.argRules with
  | error name =>
      simp only [hbound] at h
      cases h
      exact .inl ⟨name, rfl, rfl⟩
  | ok bound =>
      simp only [hbound] at h
      cases hcontext : checkContext x.policy rule r with
      | some denial =>
          simp only [hcontext] at h
          cases h
          exact .inr ⟨bound, rfl, .inl ⟨denial, rfl, rfl⟩⟩
      | none =>
          simp only [hcontext] at h
          obtain ⟨uncovered, hauthority, rfl⟩ := map_ok.1 h
          exact .inr ⟨bound, rfl, .inr ⟨rfl, uncovered, hauthority, rfl⟩⟩

theorem judgeRule_error {f : ClockFault} (h : judgeRule x rule r now = .error f) :
    checkAuthority x.table rule r now = .error f := by
  unfold judgeRule at h
  split at h
  · cases h
  · split at h
    · cases h
    · cases hauthority : checkAuthority x.table rule r now with
      | ok uncovered =>
          rw [hauthority] at h
          cases h
      | error other =>
          rw [hauthority] at h
          cases h
          rfl

theorem denial?_conclude {bound : List BoundRule} {uncovered : Option Denial}
    (h : (conclude x rule bound uncovered).denial? = none) : uncovered = none ∧
      (∀ b ∈ bound, checkIntegrityOf x b = none) ∧
      ∀ b ∈ bound, checkConfidentialityOf x b = none := by
  unfold conclude at h
  dsimp only at h
  split at h
  · cases h
  · rename_i hnone
    simp only [Option.or_eq_none_iff, List.findSome?_eq_none_iff] at hnone
    obtain ⟨⟨huncovered, hintegrity⟩, hconfidentiality⟩ := hnone
    exact ⟨huncovered, hintegrity, hconfidentiality⟩

theorem cleared_of_judgeRule {d : Decision} (h : judgeRule x rule r now = .ok d)
    (hd : d.denial? = none) : ∃ bound, Cleared x rule r now bound := by
  obtain ⟨name, -, rfl⟩ | ⟨bound, hbound, ⟨denial, -, rfl⟩ | ⟨hcontext, uncovered, hauthority, rfl⟩⟩ :=
    judgeRule_ok h
  · cases hd
  · cases hd
  · obtain ⟨rfl, hintegrity, hconfidentiality⟩ := denial?_conclude hd
    exact ⟨bound, hbound, hcontext, hauthority, hintegrity, hconfidentiality⟩

theorem checkContext_some {d : Denial} (h : checkContext x.policy rule r = some d) :
    ∃ i, d = .refusedContext rule.tool i := by
  unfold checkContext at h
  split at h
  · obtain ⟨i, -, rfl⟩ := Option.map_eq_some_iff.1 h
    exact ⟨i, rfl⟩
  · cases h

theorem checkAuthority_some {t : Table} {d : Denial}
    (h : checkAuthority t rule r now = .ok (some d)) : ∃ resources, d = .uncovered resources := by
  unfold checkAuthority at h
  split at h
  · cases h
  · obtain ⟨now, -, h⟩ := map_ok.1 h
    dsimp only at h
    split at h
    · cases h
    · cases h
      exact ⟨_, rfl⟩

theorem checkIntegrityOf_some {a : ArgRule} {value : Number} {d : Denial}
    (h : checkIntegrityOf x (a, value) = some d) :
    (∃ s, x.closure value = .error s ∧ d = .shortfall a.argument value s) ∨
      ∃ required c, a.requires = some required ∧ x.closure value = .ok c ∧
        ¬c.label.integrity.satisfies required ∧
        d = .integrity a.argument value c.label.integrity required := by
  simp only [checkIntegrityOf] at h
  split at h
  · cases h
  · rename_i required hrequired
    split at h
    · rename_i s hs
      cases h
      exact .inl ⟨s, hs, rfl⟩
    · rename_i c hc
      split at h
      · cases h
      · rename_i hfail
        cases h
        exact .inr ⟨required, c, hrequired, hc, hfail, rfl⟩

theorem checkIntegrityOf_none {a : ArgRule} {value : Number} {required : Integrity}
    (h : checkIntegrityOf x (a, value) = none) (hrequired : a.requires = some required) :
    ∃ c, x.closure value = .ok c ∧ c.label.integrity.satisfies required := by
  simp only [checkIntegrityOf, hrequired] at h
  split at h
  · cases h
  · rename_i c hc
    split at h
    · exact ⟨c, hc, ‹_›⟩
    · cases h

theorem checkConfidentialityOf_some {a : ArgRule} {value : Number} {d : Denial}
    (h : checkConfidentialityOf x (a, value) = some d) :
    (∃ s, x.closure value = .error s ∧ d = .shortfall a.argument value s) ∨
      ∃ c, x.closure value = .ok c ∧ c.label.confidentiality.present a.forbids ≠ [] ∧
        d = .forbidden a.argument value (c.label.confidentiality.present a.forbids) := by
  simp only [checkConfidentialityOf] at h
  split at h
  · cases h
  · split at h
    · rename_i s hs
      cases h
      exact .inl ⟨s, hs, rfl⟩
    · rename_i c hc
      split at h
      · cases h
      · rename_i hpresent
        cases h
        exact .inr ⟨c, hc, hpresent, rfl⟩

inductive DeniedBy (x : Execution) (rule : ToolRule) (r : Request) (now : Reading) : Denial → Prop
  | carriage {name} : bindRules r rule.argRules = .error name →
      DeniedBy x rule r now (.missingArgument rule.tool name)
  | context {d} : checkContext x.policy rule r = some d → DeniedBy x rule r now d
  | authority {d} : checkAuthority x.table rule r now = .ok (some d) → DeniedBy x rule r now d
  | fault {f text} : checkAuthority x.table rule r now = .error f → f.text? = some text →
      DeniedBy x rule r now (.fault text)
  | integrity {a value d} : a ∈ rule.argRules → r.arguments.get? a.argument = some value →
      checkIntegrityOf x (a, value) = some d → DeniedBy x rule r now d
  | confidentiality {a value d} : a ∈ rule.argRules → r.arguments.get? a.argument = some value →
      checkConfidentialityOf x (a, value) = some d → DeniedBy x rule r now d
  | default : DeniedBy x rule r now (.byDefault rule.tool)

theorem deniedBy_of_judgeRule {d : Denial} (h : judgeRule x rule r now = .ok (.deny d)) :
    DeniedBy x rule r now d := by
  obtain ⟨name, hname, hd⟩ | ⟨bound, hbound, ⟨denial, hcontext, hd⟩ | ⟨-, uncovered, hauthority, hd⟩⟩ :=
    judgeRule_ok h
  · cases hd
    exact .carriage hname
  · cases hd
    exact .context hcontext
  · have hargument {check : BoundRule → Option Denial} (hd : bound.findSome? check = some d) :
        ∃ a value, a ∈ rule.argRules ∧ r.arguments.get? a.argument = some value ∧
          check (a, value) = some d := by
      obtain ⟨⟨a, value⟩, hmem, hcheck⟩ := List.exists_of_findSome?_eq_some hd
      obtain ⟨ha, hvalue⟩ := (mem_bound hbound).1 hmem
      exact ⟨a, value, ha, hvalue, hcheck⟩
    unfold conclude at hd
    dsimp only at hd
    split at hd
    · rename_i hfirst
      cases hd
      simp only [Option.or_eq_some_iff] at hfirst
      rcases hfirst with (hd | ⟨-, hd⟩) | ⟨-, hd⟩
      · exact .authority (hd ▸ hauthority)
      · obtain ⟨a, value, ha, hvalue, hcheck⟩ := hargument hd
        exact .integrity ha hvalue hcheck
      · obtain ⟨a, value, ha, hvalue, hcheck⟩ := hargument hd
        exact .confidentiality ha hvalue hcheck
    · unfold byDefault at hd
      split at hd <;> cases hd
      exact .default

end Cascade

namespace Execution

variable {x : Execution} {r : Request} {now : Reading} {e : Evaluation}

theorem evaluate_ok :
    x.evaluate r now = .ok e ↔ x.decision r now = .ok e.decision ∧ x.report r e.decision = e := by
  rw [evaluate, map_ok]
  constructor
  · rintro ⟨d, hd, rfl⟩
    exact ⟨hd, rfl⟩
  · rintro ⟨hd, hreport⟩
    exact ⟨e.decision, hd, hreport⟩

theorem evaluate_of_decision {d : Decision} (h : x.decision r now = .ok d) :
    x.evaluate r now = .ok (x.report r d) := by
  rw [evaluate, h, Except.map]

theorem decision_ok {d : Decision} : x.decision r now = .ok d ↔ Cascade.judge x r now = .ok d ∨
    ∃ f text, Cascade.judge x r now = .error f ∧ f.text? = some text ∧
      .deny (.fault text) = d := by
  unfold decision
  cases Cascade.judge x r now with
  | ok other => simp
  | error f => cases f <;> simp [ClockFault.text?]

theorem judge_of_allowed (h : x.evaluate r now = .ok e) (allowed : e.decision.denial? = none) :
    Cascade.judge x r now = .ok e.decision := by
  obtain hd | ⟨f, text, -, -, hd⟩ := decision_ok.1 (evaluate_ok.1 h).1
  · exact hd
  · rw [← hd] at allowed
    cases allowed

theorem witness_of_evaluate (h : x.evaluate r now = .ok e) : x.witness r e.decision = e.witness :=
  congrArg Evaluation.witness (evaluate_ok.1 h).2

theorem record_of_evaluate (h : x.evaluate r now = .ok e) : x.record r e.decision = e.record :=
  congrArg Evaluation.record (evaluate_ok.1 h).2

end Execution

end ToolGate
