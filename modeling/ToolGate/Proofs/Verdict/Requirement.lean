import ToolGate.Proofs.Label.Sealing
import ToolGate.Proofs.Label.TextForm
import ToolGate.Proofs.Named
import ToolGate.Proofs.Policy.Budgets
import ToolGate.Proofs.Policy.Entries
import ToolGate.Proofs.Verdict.Reference

namespace ToolGate

namespace Registry

variable {Candidate : Type} {r r' : Registry Candidate} {tag : String} {v : Verifier Candidate}
  {calls : List (String × Verifier Candidate)}

def enrol (calls : List (String × Verifier Candidate)) : Registry Candidate :=
  calls.foldl (fun r call => (r.register call.1 call.2).toOption.getD r) []

structure Takes (tag : String) : Prop where
  shown : ¬Text.allBlank tag
  plain : ∀ c ∈ tag.toList, c ≠ '(' ∧ c ≠ ')'

theorem takes_of_register (h : r.register tag v = .ok r') : Takes tag := by
  unfold register at h
  split at h
  · cases h
  · rename_i hvalid
    simp only [Bool.or_eq_true, List.any_eq_true, not_or, not_exists, not_and] at hvalid
    refine ⟨hvalid.1, fun c hc => ?_⟩
    have hplain := hvalid.2 c hc
    simpa [Integrity.isParenthesis] using hplain

theorem takes_of_mem_register (hr : ∀ name ∈ r.names, Takes name) (call : String × Verifier Candidate) :
    ∀ name ∈ ((r.register call.1 call.2).toOption.getD r).names, Takes name := by
  cases hregister : r.register call.1 call.2 with
  | error fault => exact hr
  | ok r' =>
      intro name hname
      obtain ⟨-, rfl⟩ := register_ok hregister
      rcases Named.mem_names_put hname with hname | rfl
      · exact hr name hname
      · exact takes_of_register hregister

theorem takes_of_enrol (calls : List (String × Verifier Candidate)) :
    ∀ name ∈ (enrol calls).names, Takes name := by
  induction calls using List.reverseRecOn with
  | nil => exact nofun
  | append_singleton calls call ih =>
      rw [enrol, List.foldl_append, List.foldl_cons, List.foldl_nil, ← enrol]
      exact takes_of_mem_register ih call

theorem takes_of_verify {candidate : Candidate} {seals seals' : Seals} {s : Seal}
    (h : (enrol calls).verify tag candidate seals = .ok (some s, seals')) :
    (Mark.sealed s).integrity = .verified tag ∧ Takes tag := by
  obtain ⟨⟨v, hv, -⟩, rfl, -⟩ := verify_some h
  exact ⟨rfl, takes_of_enrol calls tag (Named.isSome_get?.1 (by rw [hv]; rfl))⟩

end Registry

namespace Integrity

variable {tag : String} {a b : Integrity}

theorem text_inj : a.text = b.text ↔ a = b := by
  refine ⟨fun h => ?_, congrArg text⟩
  cases a with
  | verified t =>
      cases b with
      | verified u =>
          rw [← String.toList_inj, verified_text, verified_text, List.append_cancel_left_eq,
            List.append_cancel_right_eq, String.toList_inj] at h
          rw [h]
      | untrusted => exact absurd h (text_verified_ne t).1
      | trusted => exact absurd h (text_verified_ne t).2
  | untrusted =>
      cases b with
      | verified u => exact absurd h.symm (text_verified_ne u).1
      | untrusted => rfl
      | trusted => exact absurd h (by decide)
  | trusted =>
      cases b with
      | verified u => exact absurd h.symm (text_verified_ne u).2
      | untrusted => exact absurd h (by decide)
      | trusted => rfl

theorem parse?_text (h : parse? a.text = some b) : b = a :=
  text_inj.1 (parse?_eq_some.1 h).text_eq

theorem isTag_iff (h : Registry.Takes tag) : IsTag tag ↔ Text.NoBlankEnds tag.toList := by
  refine ⟨IsTag.ends, fun hends => ⟨?_, h.plain, hends⟩⟩
  rintro rfl
  exact h.shown rfl

end Integrity

namespace ToolEntry

structure AcceptedBut (text : String) (e : ToolEntry) : Prop where
  authority : ∀ resource ∈ e.authority, ¬Text.allBlank resource
  distinct : (e.argRules.map ArgEntry.argument).Nodup
  requires : ∀ a ∈ e.argRules, ∀ other, a.requires = some other → other ≠ text →
    ∃ i, Integrity.parse? other = some i
  contexts : ∀ other ∈ e.refusedContexts, ∃ i, Integrity.parse? other = some i

variable {e : ToolEntry} {text name : String} {i : Integrity} {a : ArgEntry}

theorem AcceptedBut.accepted (h : e.AcceptedBut text) (hparse : Integrity.parse? text = some i) :
    e.Accepted where
  authority := h.authority
  distinct := h.distinct
  requires := by
    intro a ha other hother
    by_cases heq : other = text
    · exact ⟨i, heq ▸ hparse⟩
    · exact h.requires a ha other hother heq
  contexts := h.contexts

theorem exists_kept {as : List ArgEntry} {rs : List ArgRule} (h : List.Forall₂ ArgEntry.Kept as rs)
    (ha : a ∈ as) : ∃ r ∈ rs, a.Kept r := by
  induction h with
  | nil => cases ha
  | @cons b r as rs hb hrest ih =>
      rcases List.mem_cons.1 ha with rfl | ha
      · exact ⟨r, List.mem_cons_self, hb⟩
      · obtain ⟨r, hr, hkept⟩ := ih ha
        exact ⟨r, List.mem_cons_of_mem _ hr, hkept⟩

theorem Kept.exists_rule {r : ToolRule} (h : e.Kept r) (ha : a ∈ e.argRules)
    (htext : a.requires = some text) (hparse : Integrity.parse? text = some i) :
    ∃ rule ∈ r.argRules, rule.argument = a.argument ∧ rule.requires = some i := by
  obtain ⟨rule, hrule, hkept⟩ := exists_kept h.argRules ha
  refine ⟨rule, hrule, hkept.argument, ?_⟩
  have hrequires := hkept.requires
  rw [htext, Option.map_some, hparse, eq_comm, Option.map_eq_some_iff] at hrequires
  obtain ⟨required, hrequired, hsame⟩ := hrequires
  rw [hrequired, Option.some_inj.1 hsame]

end ToolEntry

namespace RuleEntry

variable {e : ToolEntry} {text name : String} {i : Integrity} {a : ArgEntry} {v : Json}

theorem exists_rule (he : e.StatedBy v) (ha : a ∈ e.argRules) (htext : a.requires = some text)
    (hparse : Integrity.parse? text = some i) (haccepted : e.AcceptedBut text) :
    ∃ r, ofJson name v = .rule r ∧
      ∃ rule ∈ r.argRules, rule.argument = a.argument ∧ rule.requires = some i := by
  obtain ⟨r, hr⟩ := ToolEntry.exists_compile.2 (haccepted.accepted hparse)
  exact ⟨r, (ofJson_of_stated he).2 hr, (ToolEntry.compile_kept hr).2.exists_rule ha htext hparse⟩

theorem malformed_of_unread (he : e.StatedBy v) (ha : a ∈ e.argRules)
    (htext : a.requires = some text) (hparse : Integrity.parse? text = none) :
    ∃ fault, ofJson name v = .malformed name fault := by
  cases hcompile : e.compile name with
  | error fault => exact ⟨fault, by rw [ofJson, ToolEntry.shape_ok.2 he]; dsimp only; rw [hcompile]⟩
  | ok r =>
      obtain ⟨i, hi⟩ := (ToolEntry.exists_compile.1 ⟨r, hcompile⟩).requires a ha text htext
      cases hi.symm.trans hparse

end RuleEntry

theorem Cascade.checkIntegrityOf_of_agreed {x : Execution} {value : Number} {n : Node} {l : Integrity}
    {rule : ArgRule} (hp : x.policy.Compiled) (hg : x.graph.Reached)
    (hn : x.graph.resolve? value = some n)
    (hall : ∀ m ∈ x.graph.ancestry n.id, m.mark.integrity = l) (hrule : rule.requires = some l) :
    checkIntegrityOf x (rule, value) =
      if x.policy.budgets.closureSteps.ltNat (x.graph.ancestry n.id).card then
        some (.shortfall rule.argument value (.overBudget value x.policy.budgets.closureSteps))
      else none := by
  rcases hg.layered.closure_eq hp.closureSteps hn with ⟨hover, hc⟩ | ⟨hpaid, joined, hc, hsums⟩
  · simp only [if_pos hover, checkIntegrityOf, hrule, Execution.closure, hc]
  · have hsatisfies : joined.integrity.satisfies l :=
      (hsums.satisfies l).2 fun m hm => (Integrity.satisfies_iff _ _).2 (.inr (hall m hm))
    simp only [if_neg hpaid, checkIntegrityOf, hrule, Execution.closure, hc, if_pos hsatisfies]

/-- A label can be required: its text form is read back, an entry that asks for it has a rule that does,
and that is satisfied by every value that comes from such values alone. -/
structure Integrity.Requirable (l : Integrity) : Prop where
  read : parse? l.text = some l
  compiled : ∀ (name : String) (v : Json) (e : ToolEntry), e.StatedBy v → e.AcceptedBut l.text →
    ∀ a ∈ e.argRules, a.requires = some l.text → ∃ r, RuleEntry.ofJson name v = .rule r ∧
      ∃ rule ∈ r.argRules, rule.argument = a.argument ∧ rule.requires = some l
  satisfied : ∀ (x : Execution) (value : Number) (n : Node) (rule : ArgRule),
    x.policy.Compiled → x.graph.Reached → x.graph.resolve? value = some n →
    (∀ m ∈ x.graph.ancestry n.id, m.mark.integrity = l) → rule.requires = some l →
    ¬x.policy.budgets.closureSteps.ltNat (x.graph.ancestry n.id).card →
    Cascade.checkIntegrityOf x (rule, value) = none

/-- A label cannot be required: its text form is not read, and a tool whose entry asks for it has no
rule. -/
structure Integrity.Unrequirable (l : Integrity) : Prop where
  unread : parse? l.text = none
  malformed : ∀ (name : String) (v : Json) (e : ToolEntry), e.StatedBy v →
    ∀ a ∈ e.argRules, a.requires = some l.text →
      ∃ fault, RuleEntry.ofJson name v = .malformed name fault

theorem Integrity.requirable_of_parse? {l : Integrity} (h : parse? l.text = some l) :
    l.Requirable where
  read := h
  compiled _ _ _ he haccepted _ ha htext := RuleEntry.exists_rule he ha htext h haccepted
  satisfied _ _ _ _ hp hg hn hall hrule hpaid := by
    rw [Cascade.checkIntegrityOf_of_agreed hp hg hn hall hrule, if_neg hpaid]

theorem Integrity.Requirable.not_unrequirable {l : Integrity} (h : l.Requirable) :
    ¬l.Unrequirable := by
  intro hnot
  cases h.read.symm.trans hnot.unread

theorem Integrity.unrequirable_of_parse? {l : Integrity} (h : parse? l.text = none) :
    l.Unrequirable where
  unread := h
  malformed _ _ _ he _ ha htext := RuleEntry.malformed_of_unread he ha htext h

namespace Registry

theorem requirable_iff {Candidate : Type} {calls : List (String × Verifier Candidate)}
    {tag : String} {candidate : Candidate} {seals seals' : Seals} {s : Seal}
    (h : (enrol calls).verify tag candidate seals = .ok (some s, seals')) :
    ((Mark.sealed s).integrity.Requirable ↔ Text.NoBlankEnds tag.toList) ∧
      ((Mark.sealed s).integrity.Unrequirable ↔ ¬Text.NoBlankEnds tag.toList) := by
  obtain ⟨hlabel, htakes⟩ := takes_of_verify h
  rw [hlabel]
  by_cases hends : Text.NoBlankEnds tag.toList
  · have htag := (Integrity.isTag_iff htakes).2 hends
    have hrequirable := Integrity.requirable_of_parse? (Integrity.parse?_verified htag)
    exact ⟨iff_of_true hrequirable hends,
      iff_of_false hrequirable.not_unrequirable (not_not_intro hends)⟩
  · have hunread : Integrity.parse? (Integrity.verified tag).text = none := by
      rw [Option.eq_none_iff_forall_ne_some]
      intro i hi
      obtain rfl := Integrity.parse?_text hi
      exact hends (Integrity.spells_text.1 (Integrity.parse?_eq_some.1 hi) tag rfl).ends
    have hnot := Integrity.unrequirable_of_parse? hunread
    exact ⟨iff_of_false (fun h => h.not_unrequirable hnot) hends, iff_of_true hnot hends⟩

namespace Enrolment

def accept : Verifier Unit := fun _ => .ok true

def calls : List (String × Verifier Unit) := [("dns", accept), ("dns ", accept)]

theorem verify_dns : (enrol calls).verify "dns" () [] = .ok (some ⟨0, "dns"⟩, ["dns"]) := by
  decide +kernel

theorem verify_dns_blank : (enrol calls).verify "dns " () [] = .ok (some ⟨0, "dns "⟩, ["dns "]) := by
  decide +kernel

theorem noBlankEnds_dns : Text.NoBlankEnds "dns".toList := by
  rw [← Text.trim_eq_self_iff]
  decide

theorem not_noBlankEnds_dns_blank : ¬Text.NoBlankEnds "dns ".toList := by
  rw [← Text.trim_eq_self_iff]
  decide

def answer : Node := ⟨1, .sealed ⟨0, "dns"⟩, .ofTags [] false, [], literalKind⟩

def desk : Execution := ⟨"e", Reference.mailPolicy, ⟨⟨10, 4⟩, [answer]⟩, .empty⟩

theorem desk_reached : desk.graph.Reached := by
  have hstep : (Graph.empty ⟨10, 4⟩).create ["dns"] (Graph.proposal answer) =
      .ok (answer, desk.graph) := by
    decide +kernel
  exact .create (.empty ⟨10, 4⟩) hstep

theorem ancestry_answer : desk.graph.ancestry answer.id = {answer} := by
  ext m
  rw [Graph.mem_ancestry, Finset.mem_singleton, desk, List.mem_singleton]
  refine and_iff_left_of_imp ?_
  rintro rfl
  exact .refl

end Enrolment

open Enrolment RuleEntry.Notice in
theorem requirable_iff_of_dns :
    (∃ r, RuleEntry.ofJson "post" (posting [argument "Verified(dns)"]) = .rule r ∧
      ∃ rule ∈ r.argRules, rule.argument = "to" ∧ rule.requires = some (.verified "dns") ∧
        Cascade.checkIntegrityOf desk (rule, 1) = none) ∧
    (Integrity.verified "dns ").Unrequirable := by
  have hrequirable := (requirable_iff verify_dns).1.2 noBlankEnds_dns
  have haccepted : (entry [read "Verified(dns)"]).AcceptedBut "Verified(dns)" := by
    refine ⟨by decide, by decide, fun a ha other hother hne => ?_, fun other hother => ?_⟩
    · obtain rfl := List.mem_singleton.1 ha
      exact absurd (Option.some.inj hother).symm hne
    · obtain rfl := List.mem_singleton.1 hother
      exact ⟨.untrusted, by decide⟩
  obtain ⟨r, hr, rule, hrule, hargument, hrequires⟩ :=
    hrequirable.compiled "post" _ _ stated_once haccepted _ List.mem_cons_self rfl
  have hresolved : desk.graph.resolve? 1 = some answer := by decide +kernel
  have hagreed : ∀ m ∈ desk.graph.ancestry answer.id, m.mark.integrity = .verified "dns" := by
    rw [ancestry_answer]
    intro m hm
    rw [Finset.mem_singleton.1 hm]
    rfl
  have hpaid : ¬desk.policy.budgets.closureSteps.ltNat (desk.graph.ancestry answer.id).card := by
    rw [ancestry_answer, Finset.card_singleton]
    decide +kernel
  have hsatisfied := hrequirable.satisfied desk 1 answer rule Reference.mailPolicy_compiled
    desk_reached hresolved hagreed hrequires hpaid
  exact ⟨⟨r, hr, rule, hrule, hargument, hrequires, hsatisfied⟩,
    (requirable_iff verify_dns_blank).2.2 not_noBlankEnds_dns_blank⟩

open Enrolment in
theorem not_requirable : ¬∀ (calls : List (String × Verifier Unit)) (tag : String) (seals seals' : Seals)
    (s : Seal), (enrol calls).verify tag () seals = .ok (some s, seals') →
      Integrity.parse? (Mark.sealed s).integrity.text = some (Mark.sealed s).integrity := by
  intro hclaim
  have hread := hclaim calls "dns " [] ["dns "] ⟨0, "dns "⟩ verify_dns_blank
  have hunread : Integrity.parse? (Integrity.verified "dns ").text = none := by decide
  cases hunread.symm.trans hread

end Registry

end ToolGate
