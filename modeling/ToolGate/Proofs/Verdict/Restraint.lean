import Mathlib.Data.List.Perm.Subperm
import ToolGate.Proofs.Provenance.Survey
import ToolGate.Proofs.Token.Revocation
import ToolGate.Proofs.Verdict.Checks
import ToolGate.Verdict.Evaluation

namespace ToolGate

structure Node.Tainted (n m : Node) : Prop where
  parents : ∀ p ∈ n.parents, p ∈ m.parents
  integrity : m.mark.integrity = n.mark.integrity ∨ m.mark.integrity = .untrusted
  universal : n.confidentiality.universal → m.confidentiality.universal
  tags : m.confidentiality.universal ∨ ∀ tag ∈ n.confidentiality.tags, tag ∈ m.confidentiality.tags

structure Graph.Tainted (g h : Graph) : Prop where
  stored : ∀ id, g.has id ↔ h.has id
  values : ∀ id n m, g.get? id = some n → h.get? id = some m → n.Tainted m

structure Request.Restrained (r s : Request) : Prop where
  tool : s.tool = r.tool
  arguments : s.arguments = r.arguments
  subject : s.subject = r.subject
  context : ∀ i ∈ r.context, i ∈ s.context
  held : ∀ id ∈ s.held, id ∈ r.held

structure Execution.Restrained (x y : Execution) : Prop where
  policy : y.policy = x.policy
  graph : x.graph.Tainted y.graph
  table : x.table.RevokedTo y.table

namespace Node.Tainted

variable {n m : Node}

theorem satisfies (h : n.Tainted m) {required : Integrity}
    (hm : m.label.integrity.satisfies required) : n.label.integrity.satisfies required := by
  rw [Integrity.satisfies_iff] at hm ⊢
  rcases hm with hm | hm
  · exact .inl hm
  · rcases h.integrity with hsame | hnone
    · exact .inr (hsame.symm.trans hm)
    · exact .inl (hm.symm.trans hnone)

theorem carries (h : n.Tainted m) {tag : String} (hn : n.confidentiality.carries tag) :
    m.confidentiality.carries tag := by
  rw [Confidentiality.carries_iff] at hn ⊢
  rcases hn with hn | hn
  · exact .inl (h.universal hn)
  · exact h.tags.imp_right fun hall => hall tag hn

end Node.Tainted

namespace Graph

variable {g h : Graph}

theorem Tainted.get? (ht : g.Tainted h) {id : Nat} {m : Node} (hm : h.get? id = some m) :
    ∃ n, g.get? id = some n ∧ n.Tainted m := by
  have hstored : g.has id := (ht.stored id).2 (has_of_get? hm)
  obtain ⟨n, hn⟩ := Option.isSome_iff_exists.1 hstored
  exact ⟨n, hn, ht.values id n m hn hm⟩

theorem Tainted.resolve? (ht : g.Tainted h) {value : Number} {m : Node}
    (hm : h.resolve? value = some m) : ∃ n, g.resolve? value = some n ∧ n.id = m.id ∧ n.Tainted m := by
  obtain ⟨i, hi, hget⟩ := Option.bind_eq_some_iff.1 hm
  obtain ⟨n, hn, htaint⟩ := ht.get? hget
  refine ⟨n, Option.bind_eq_some_iff.2 ⟨i, hi, hn⟩, ?_, htaint⟩
  rw [(get?_some hn).2, (get?_some hget).2]

theorem Tainted.met (ht : g.Tainted h) {root : Nat} {seen : List Node} {met : List Nat}
    (hs : Survey h root seen ⟨[], met⟩) (closed : ∀ n ∈ seen, ∀ p ∈ n.parents, p ∈ met) {a : Nat}
    (ha : g.Ancestor root a) : ∃ m ∈ seen, m.id = a ∧ h.get? a = some m := by
  have hfind (b : Nat) (hb : h.Ancestor root b) : ∃ m ∈ seen, m.id = b ∧ h.get? b = some m := by
    obtain ⟨m, hm, rfl⟩ := hs.complete closed hb
    exact ⟨m, hm, rfl, hs.stored m (by simpa using hm)⟩
  refine hfind a ?_
  induction ha with
  | refl => exact Relation.ReflTransGen.refl
  | @tail b c _ hstep ih =>
      obtain ⟨n, hn, hp⟩ := hstep
      obtain ⟨m, -, -, hm⟩ := hfind b ih
      exact ih.tail ⟨m, hm, (ht.values b n m hn hm).parents c hp⟩

theorem Tainted.closure (ht : g.Tainted h) {limit value : Number} {c : Closure}
    (hc : h.closure limit value = .ok c) : ∃ b, g.closure limit value = .ok b ∧
      (∀ required, c.label.integrity.satisfies required → b.label.integrity.satisfies required) ∧
      ∀ tag, b.label.confidentiality.carries tag → c.label.confidentiality.carries tag := by
  cases hm : h.resolve? value with
  | none =>
      rw [closure_unknown hm] at hc
      cases hc
  | some m =>
      obtain ⟨n, hn, hid, htaint⟩ := ht.resolve? hm
      have hend : Ending h limit value m (h.closure limit value) := ending_closure hm
      rw [hc] at hend
      cases hend with
      | @whole after met hs closed paid =>
          have hmeet {a : Nat} (ha : g.Ancestor n.id a) := ht.met hs closed (hid ▸ ha)
          have hend : Ending g limit value n (g.closure limit value) := ending_closure hn
          generalize g.closure limit value = b at hend
          cases hend with
          | @whole before _ hs' _ _ =>
              have hpair (k : Node) (hk : k ∈ before) : ∃ l ∈ after, k.Tainted l := by
                obtain ⟨l, hl, -, hget⟩ := hmeet (hs'.above k (by simpa using hk))
                exact ⟨l, hl, ht.values _ k l (hs'.stored k (by simpa using hk)) hget⟩
              refine ⟨_, rfl, fun required hall => ?_, fun tag hany => ?_⟩
              · rw [Label.satisfies_joinAll, List.forall_mem_map] at hall ⊢
                refine ⟨htaint.satisfies hall.1, fun k hk => ?_⟩
                obtain ⟨l, hl, hkl⟩ := hpair k hk
                exact hkl.satisfies (hall.2 l hl)
              · simp only [Label.carries_joinAll, List.mem_map, exists_exists_and_eq_and] at hany ⊢
                rcases hany with hany | ⟨k, hk, hany⟩
                · exact .inl (htaint.carries hany)
                · obtain ⟨l, hl, hkl⟩ := hpair k hk
                  exact .inr ⟨l, hl, hkl.carries hany⟩
          | @short before f hs' hqueue hover =>
              -- what it has met the other walk took in, which paid for more
              have hsub : (before ++ f.queue).map Node.id ⊆ after.map Node.id := by
                intro a ha
                obtain ⟨k, hk, rfl⟩ := List.mem_map.1 ha
                obtain ⟨l, hl, hkl, -⟩ := hmeet (hs'.above k hk)
                exact List.mem_map.2 ⟨l, hl, hkl⟩
              have hle := (hs'.distinct.subperm hsub).length_le
              have hpos := List.length_pos_iff.2 hqueue
              simp only [List.length_map, List.length_append] at hle
              exact absurd hover (paid before.length (by omega))
          | broken habove hmissing =>
              -- the missing value is stored in the other graph, and so in this one
              obtain ⟨l, -, -, hget⟩ := hmeet habove
              obtain ⟨k, hk, -⟩ := ht.get? hget
              rw [hmissing] at hk
              cases hk

end Graph

namespace Cascade

variable {x y : Execution} {r s : Request} {rule : ToolRule}

theorem checkContext_of_restrained (hr : r.Restrained s) {p : Policy}
    (h : checkContext p rule s = none) : checkContext p rule r = none := by
  unfold checkContext at h ⊢
  by_cases hstrict : p.strict
  · rw [if_pos hstrict, Option.map_eq_none_iff, List.find?_eq_none] at h ⊢
    exact fun i hi => h i (hr.context i hi)
  · rw [if_neg hstrict]

theorem covered_of_restrained (hr : r.Restrained s) {t u : Table} (ht : t.RevokedTo u)
    {now : Number} {resource : String} (h : resource ∈ covered u s now) :
    resource ∈ covered t r now := by
  rw [mem_covered] at h ⊢
  obtain ⟨id, hid, l, hl, hvalid, hsubject, hscope⟩ := h
  obtain ⟨k, hk, hkl⟩ := ht.get? hl
  have hsame : l.subject = k.subject ∧ l.scope = k.scope := by rcases hkl with rfl | rfl <;> simp
  refine ⟨id, hr.held id hid, k, hk, ht.validate hvalid, ?_, hsame.2 ▸ hscope⟩
  rw [← hsame.1, ← hr.subject]
  exact hsubject

theorem checkAuthority_of_restrained (hr : r.Restrained s) {t u : Table} (ht : t.RevokedTo u)
    {now : Reading} (h : checkAuthority u rule s now = .ok none) :
    checkAuthority t rule r now = .ok none := by
  unfold checkAuthority at h ⊢
  by_cases hnone : rule.authority.isEmpty
  · rw [if_pos hnone]
  · rw [if_neg hnone] at h ⊢
    cases now with
    | error f => cases h
    | ok now =>
        simp only [Except.map, Except.ok.injEq, ite_eq_left_iff, reduceCtorEq, imp_false,
          Classical.not_not, List.isEmpty_iff,
          List.filter_eq_nil_iff] at h ⊢
        intro resource hresource
        have hcovered := h resource hresource
        simp only [Bool.not_eq_true', Bool.not_eq_false, List.contains_iff_mem] at hcovered ⊢
        exact covered_of_restrained hr ht hcovered

theorem closure_of_restrained (hx : x.Restrained y) {value : Number} {c : Closure}
    (hc : y.closure value = .ok c) : ∃ b, x.closure value = .ok b ∧
      (∀ required, c.label.integrity.satisfies required → b.label.integrity.satisfies required) ∧
      ∀ tag, b.label.confidentiality.carries tag → c.label.confidentiality.carries tag := by
  unfold Execution.closure at hc ⊢
  rw [hx.policy] at hc
  exact hx.graph.closure hc

theorem checkIntegrityOf_of_restrained (hx : x.Restrained y) {b : BoundRule}
    (h : checkIntegrityOf y b = none) : checkIntegrityOf x b = none := by
  obtain ⟨a, value⟩ := b
  simp only [checkIntegrityOf] at h ⊢
  cases hrequired : a.requires with
  | none => rfl
  | some required =>
      rw [hrequired] at h
      cases hc : y.closure value with
      | error shortfall =>
          rw [hc] at h
          cases h
      | ok c =>
          obtain ⟨d, hd, hsatisfies, -⟩ := closure_of_restrained hx hc
          simp only [hc, ite_eq_left_iff, reduceCtorEq, imp_false, Classical.not_not] at h
          simp [hd, hsatisfies required h]

theorem checkConfidentialityOf_of_restrained (hx : x.Restrained y) {b : BoundRule}
    (h : checkConfidentialityOf y b = none) : checkConfidentialityOf x b = none := by
  obtain ⟨a, value⟩ := b
  simp only [checkConfidentialityOf] at h ⊢
  split at h
  · rename_i hempty
    rw [if_pos hempty]
  · rename_i hforbids
    rw [if_neg hforbids]
    cases hc : y.closure value with
    | error shortfall =>
        rw [hc] at h
        cases h
    | ok c =>
        obtain ⟨d, hd, -, hcarries⟩ := closure_of_restrained hx hc
        have hnone : c.label.confidentiality.present a.forbids = [] := by
          simp only [hc] at h
          split at h
          · assumption
          · cases h
        have hstill : d.label.confidentiality.present a.forbids = [] := by
          rw [Confidentiality.present, List.filter_eq_nil_iff] at hnone ⊢
          exact fun tag htag hany => hnone tag htag (hcarries tag hany)
        simp [hd, hstill]

theorem Cleared.of_restrained (hx : x.Restrained y) (hr : r.Restrained s) {now : Reading}
    {bound : List BoundRule} (h : Cleared y rule s now bound) : Cleared x rule r now bound where
  carried := bindRules_congr hr.arguments rule.argRules ▸ h.carried
  context := checkContext_of_restrained hr (hx.policy ▸ h.context)
  authority := checkAuthority_of_restrained hr hx.table h.authority
  integrity := fun b hb => checkIntegrityOf_of_restrained hx (h.integrity b hb)
  confidentiality := fun b hb => checkConfidentialityOf_of_restrained hx (h.confidentiality b hb)

end Cascade

theorem decision_of_restrained {x y : Execution} {r s : Request} {now : Reading} {e : Evaluation}
    (hx : x.Restrained y) (hr : r.Restrained s) (he : y.evaluate s now = .ok e)
    (allowed : e.decision.denial? = none) :
    ∃ e', x.evaluate r now = .ok e' ∧ e'.decision = e.decision := by
  have hjudged := Execution.judge_of_allowed he allowed
  have hsame : Cascade.judge x r now = .ok e.decision := by
    rw [← hjudged]
    simp only [Cascade.judge, hx.policy, hr.tool] at hjudged ⊢
    cases hrule : x.policy.rules.get? r.tool with
    | none => rfl
    | some entry =>
        cases entry with
        | malformed tool fault => rfl
        | rule rule =>
            simp only [hrule] at hjudged ⊢
            obtain ⟨bound, hcleared⟩ := Cascade.cleared_of_judgeRule hjudged allowed
            rw [hcleared.judgeRule, (hcleared.of_restrained hx hr).judgeRule]
  have hdecision := Execution.decision_ok.2 (.inl hsame)
  exact ⟨_, Execution.evaluate_of_decision hdecision, rfl⟩

namespace Restraint

def rule : ToolRule :=
  ⟨"send", .externalWrite, ["mail"], [⟨"to", none, ["secret"]⟩], [.untrusted], .requireConfirmation⟩

def policy : Policy :=
  ⟨"mail", false, true, ⟨10, 4, 8, 4⟩, [("send", .rule rule)]⟩

def token (id : String) (revoked : Bool) : Token :=
  ⟨id, "host", "agent", ["mail"], ⟨0, none⟩, none, revoked⟩

def literal : Node := ⟨1, .plain .untrusted, .ofTags ["web"] false, [], "literal"⟩

def before : Execution :=
  ⟨"e", policy, ⟨⟨10, 4⟩, [⟨2, .plain .trusted, .ofTags [] false, [], "extract"⟩, literal]⟩,
    ⟨[token "spare" false, token "main" false]⟩⟩

def after : Execution :=
  ⟨"e", policy, ⟨⟨10, 4⟩, [⟨2, .plain .untrusted, .ofTags ["web"] false, [1], "extract"⟩, literal]⟩,
    ⟨[token "spare" true, token "main" false]⟩⟩

def call (context : List Integrity) (held : List String) : Request :=
  ⟨"c", "send", [("to", 2)], context, held, some "agent", none, none⟩

end Restraint

open Restraint in
theorem decision_of_restrained_send :
    before.Restrained after ∧
      (call [] ["main", "spare"]).Restrained (call [.trusted] ["main"]) ∧
      ∃ e, before.evaluate (call [] ["main", "spare"]) (.ok 5) = .ok e ∧
        e.decision = .requireConfirmation := by
  have hx : before.Restrained after := by
    refine ⟨rfl, ⟨fun id => ?_, fun id n m hn hm => ?_⟩, ?_⟩
    · simp [Graph.has, Graph.get?, before, after]
    · obtain ⟨hmem, hid⟩ := Graph.get?_some hn
      obtain ⟨hmem', hid'⟩ := Graph.get?_some hm
      simp only [before, after, List.mem_cons, List.not_mem_nil, or_false] at hmem hmem'
      rcases hmem with rfl | rfl <;> rcases hmem' with rfl | rfl
      · constructor <;> decide
      · exact absurd (hid.trans hid'.symm) (by decide)
      · exact absurd (hid.trans hid'.symm) (by decide)
      · constructor <;> decide
    · exact .cons (.inr rfl) (.cons (.inl rfl) .nil)
  have hr : (call [] ["main", "spare"]).Restrained (call [.trusted] ["main"]) := by
    constructor <;> simp [call]
  have hdecision : after.decision (call [.trusted] ["main"]) (.ok 5) = .ok .requireConfirmation := by
    decide +kernel
  have allowed := Execution.evaluate_of_decision hdecision
  exact ⟨hx, hr, decision_of_restrained hx hr allowed rfl⟩

end ToolGate
