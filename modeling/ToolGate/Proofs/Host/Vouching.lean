import ToolGate.Proofs.Host.Run
import ToolGate.Proofs.Provenance.Ancestry
import ToolGate.Proofs.Verdict.Checks

namespace ToolGate

namespace Host

variable {Candidate : Type} {h h' : Host Candidate} {a : Act Candidate}
  {acts : List (Act Candidate)} {i : Nat} {v : Verifier Candidate} {tag id : String} {s : Seal}
  {p : Policy}
  {t : Table}

theorem Step.registered (hs : Step h a h') (hv : Named.get? tag (h'.registries i) = some v) :
    a = .register i tag v ∨ Named.get? tag (h.registries i) = some v := by
  cases hs with
  | @register j name w r hr =>
      obtain ⟨-, rfl⟩ := Registry.register_ok hr
      by_cases hj : i = j
      · subst hj
        simp only [Function.update_self, Named.get?_put] at hv
        split at hv
        · rename_i hname
          subst hname
          cases hv
          exact .inl rfl
        · exact .inr hv
      · simp only [Function.update_of_ne hj] at hv
        exact .inr hv
  | _ => exact .inr hv

theorem registered_of_run (hv : Named.get? tag (((start id p t).run acts).registries i) = some v) :
    .register i tag v ∈ acts := by
  refine run_induction (P := fun acts h => ∀ i tag v, Named.get? tag (h.registries i) = some v →
    .register i tag v ∈ acts) ?_ ?_ acts i tag v hv
  · intro i tag v hv
    cases hv
  · intro acts a h' ih hs i tag v hv
    rw [List.mem_append, List.mem_singleton]
    rcases hs.registered hv with rfl | hv
    · exact .inr rfl
    · exact .inl (ih i tag v hv)

/-- A verifier has earned this seal: registered for its tag, it has accepted a candidate. -/
def Issued (h : Host Candidate) (acts : List (Act Candidate)) (s : Seal) : Prop :=
  ∃ before i candidate after v seals, acts = before ++ .verify i s.tag candidate :: after ∧
    .register i s.tag v ∈ before ∧ Named.get? s.tag ((h.run before).registries i) = some v ∧
    v candidate = .ok true ∧
    ((h.run before).registries i).verify s.tag candidate (h.run before).seals = .ok (some s, seals)

theorem Issued.snoc (hs : Issued h acts s) : Issued h (acts ++ [a]) s := by
  obtain ⟨before, i, candidate, after, v, seals, rfl, hrest⟩ := hs
  refine ⟨before, i, candidate, after ++ [a], v, seals, ?_, hrest⟩
  rw [List.append_assoc, List.cons_append]

theorem issued_of_holds (hs : ((start id p t).run acts).seals.holds s) :
    Issued (start id p t) acts s := by
  refine run_induction (P := fun acts h => ∀ s, h.seals.holds s → Issued (start id p t) acts s)
    ?_ ?_ acts s hs
  · intro s hs
    cases s
    cases Seals.holds_iff.1 hs
  · intro acts a h' ih hstep s hs
    cases hstep with
    | @verify i tag candidate issued seals hverify =>
        obtain ⟨⟨v, hv, haccepted⟩, rfl, rfl⟩ := Registry.verify_some hverify
        rcases Seals.holds_snoc hs with hs | rfl
        · exact (ih s hs).snoc
        · exact ⟨acts, i, candidate, [], v, _, rfl, registered_of_run hv, hv, haccepted, hverify⟩
    | _ => exact (ih s hs).snoc

theorem Step.admitted (hs : Step h a h')
    (ih : ∀ n ∈ h.execution.graph.nodes, n.mark.admissible h.seals) :
    ∀ n ∈ h'.execution.graph.nodes, n.mark.admissible h'.seals := by
  intro n hn
  have hkept (hn : n ∈ h.execution.graph.nodes) : n.mark.admissible h'.seals :=
    Mark.admissible_of_isPrefix hs.seals_prefix (ih n hn)
  cases hs with
  | @value e m g hon =>
      rw [e.on_eq, Graph.insert_ok] at hon
      obtain ⟨-, -, -, -, hmark, hsame, -, -, rfl⟩ := hon
      rcases List.mem_cons.1 hn with rfl | hn
      · rw [hsame]
        exact hmark
      · exact hkept hn
  | reset => cases hn
  | _ => exact hkept hn

theorem admitted_run (id : String) (p : Policy) (t : Table) (acts : List (Act Candidate)) :
    ∀ n ∈ ((start id p t).run acts).execution.graph.nodes,
      n.mark.admissible ((start id p t).run acts).seals := by
  refine run_induction (P := fun _ h => ∀ n ∈ h.execution.graph.nodes, n.mark.admissible h.seals)
    ?_ ?_ acts
  · intro n hn
    cases hn
  · intro acts a h' ih hs
    exact hs.admitted ih

/-- All that a value comes from carries the tag under seals which verifiers have issued. -/
def Vouched (h : Host Candidate) (acts : List (Act Candidate)) (tag : String) (value : Number) :
    Prop :=
  ∃ n, (h.run acts).execution.graph.resolve? value = some n ∧
    ∀ b, (h.run acts).execution.graph.Ancestor n.id b →
      ∃ m s, (h.run acts).execution.graph.get? b = some m ∧ m.mark = .sealed s ∧ s.tag = tag ∧
        Issued h acts s

theorem vouched_of_verified {value : Number} {c : Closure}
    (hc : ((start id p t).run acts).execution.closure value = .ok c)
    (hverified : c.label.integrity.satisfies (.verified tag)) :
    Vouched (start id p t) acts tag value := by
  have hg := (proper_run id p t acts).graph.layered
  obtain ⟨n, hn⟩ := Graph.resolve?_of_closure hc
  have hall := ((hg.closure_sums hn hc).satisfies _).1 hverified
  refine ⟨n, hn, fun b hb => ?_⟩
  -- every ancestor is a stored value, so it counts in the join
  have hroot := Graph.has_of_get? (Graph.resolve?_some hn)
  obtain ⟨m, hm, rfl⟩ := Graph.has_iff.1 (hg.stored_ancestor hroot hb)
  have hlabel := hall m (Graph.mem_ancestry.2 ⟨hm, hb⟩)
  rw [Integrity.satisfies_iff] at hlabel
  have hmark : m.mark.integrity = .verified tag := by simpa [Node.label] using hlabel
  obtain ⟨s, hs, htag, hholds⟩ := Mark.sealed_of_verified (admitted_run id p t acts m hm) hmark
  exact ⟨m, s, hg.get? hm, hs, htag, issued_of_holds hholds⟩

theorem verified_argument_vouched {rule : ToolRule} {arg : ArgRule} {r : Request} {now : Reading}
    {e : Evaluation} (hrule : p.rules.get? r.tool = some (.rule rule)) (harg : arg ∈ rule.argRules)
    (hrequires : arg.requires = some (.verified tag))
    (he : ((start id p t).run acts).execution.evaluate r now = .ok e)
    (hpass : e.decision.denial? = none) :
    ∃ value, r.arguments.get? arg.argument = some value ∧
      Vouched (start id p t) acts tag value := by
  have hpolicy := (proper_run id p t acts).policy
  have hjudged := Execution.judge_of_allowed he hpass
  simp only [Cascade.judge, hpolicy, hrule] at hjudged
  obtain ⟨bound, hcleared⟩ := Cascade.cleared_of_judgeRule hjudged hpass
  obtain ⟨value, hvalue⟩ := Cascade.carried_of_bound hcleared.carried harg
  have hbound := (Cascade.mem_bound hcleared.carried).2 ⟨harg, hvalue⟩
  obtain ⟨c, hc, hverified⟩ := Cascade.checkIntegrityOf_none (hcleared.integrity _ hbound) hrequires
  exact ⟨value, hvalue, vouched_of_verified hc hverified⟩

namespace Vouching

def mailRule : ToolRule :=
  ⟨"send", .externalWrite, [], [⟨"to", some (.verified "address"), []⟩], [], .allow⟩

def policy : Policy :=
  ⟨"mail", false, true, ⟨10, 4, 8, 4⟩, [("send", .rule mailRule)]⟩

def isKnown : Verifier String := fun candidate => .ok (candidate == "agent@host")

def literal (mark : Mark) (parents : List Number) : Proposal :=
  ⟨mark, .ofTags [] false, parents, literalKind⟩

def session : List (Act String) :=
  [.register 1 "address" isKnown, .verify 1 "address" "stranger@web",
    .value (.create (literal (.plain (.verified "address")) [])), .verify 1 "address" "agent@host",
    .value (.create (literal (.sealed ⟨0, "address"⟩) [])),
    .value (.record 5 (literal (.sealed ⟨0, "address"⟩) [1]))]

def send : Request := ⟨"c", "send", [("to", 5)], [], [], none, none, none⟩

end Vouching

open Vouching in
theorem verified_argument_vouched_of_address :
    (∃ e, ((start "e" policy .empty).run session).execution.evaluate send (.ok 0) = .ok e ∧
      e.decision.denial? = none) ∧
      ∃ value, send.arguments.get? "to" = some value ∧
        Vouched (start "e" policy .empty) session "address" value := by
  have hrule : policy.rules.get? send.tool = some (.rule mailRule) := by decide +kernel
  have hdecision : ((start "e" policy .empty).run session).execution.decision send (.ok 0) =
      .ok .allow := by
    decide +kernel
  have he := Execution.evaluate_of_decision hdecision
  exact ⟨⟨_, he, rfl⟩, verified_argument_vouched hrule (List.mem_singleton.2 rfl) rfl he rfl⟩

end Host

end ToolGate
