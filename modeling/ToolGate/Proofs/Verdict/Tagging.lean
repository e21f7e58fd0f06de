import ToolGate.Proofs.Json.Reading
import ToolGate.Proofs.Named
import ToolGate.Proofs.Policy.Budgets
import ToolGate.Proofs.Provenance.Closures
import ToolGate.Proofs.Provenance.Memo
import ToolGate.Proofs.Text.Order
import ToolGate.Proofs.Verdict.Agreement
import ToolGate.Proofs.Verdict.Reference

namespace ToolGate

namespace Json

variable {α : Type} {done xs : Named α}

/-- Assigns a member to an object. Under the name of the base that adds none. -/
def assign (done : Named α) (member : String × α) : Named α :=
  if member.1 = baseName then done else done.put member.1 member.2

theorem foldl_assign (h : (done ++ xs).names.Nodup) :
    xs.foldl assign done = done ++ xs.filter (·.1 != baseName) := by
  induction xs generalizing done with
  | nil => simp
  | cons x xs ih =>
      obtain ⟨name, a⟩ := x
      rw [List.foldl_cons, assign, List.filter_cons]
      by_cases hbase : name = baseName
      · have hrest : (done ++ xs).names.Nodup :=
          h.sublist (((List.sublist_cons_self _ _).append_left done).map Prod.fst)
        rw [if_pos hbase, ih hrest]
        simp [hbase]
      · rw [if_neg hbase, Named.put_of_distinct h, ih (by simpa using h)]
        simp [hbase]

end Json

namespace Execution

variable {x : Execution} {r : Request} {now : Reading} {e : Evaluation}

theorem exists_told (x : Execution) (r : Request) (d : Decision) : ∃ told : Number → List String,
    x.argumentTags r d =
      (r.ordered.filter (·.1 != Json.baseName)).map fun a => (a.1, told a.2) := by
  cases d with
  | deny denial =>
      cases denial with
      | fault f => exact ⟨fun _ => Confidentiality.all.names, rfl⟩
      | _ => exact ⟨fun value => tagNames (x.closure value), rfl⟩
  | _ => exact ⟨fun value => tagNames (x.closure value), rfl⟩

theorem names_argumentTags (x : Execution) (r : Request) (d : Decision) :
    (x.argumentTags r d).names = r.ordered.names.filter (· != Json.baseName) := by
  obtain ⟨told, htold⟩ := x.exists_told r d
  refine (congrArg Named.names htold).trans ?_
  simp only [Named.names, List.map_map, List.filter_map, Function.comp_def]

theorem record_argumentTags (h : x.evaluate r now = .ok e) :
    x.argumentTags r e.decision = e.record.argumentTags :=
  congrArg Record.argumentTags (record_of_evaluate h)

theorem argumentTags_assigned (hr : r.arguments.names.Nodup) (h : x.evaluate r now = .ok e) :
    ∃ told : Number → List String,
      e.record.argumentTags = (r.ordered.map fun a => (a.1, told a.2)).foldl Json.assign [] := by
  have hordered : r.ordered.names.Nodup :=
    ((indexFirst_perm r.arguments).map Prod.fst).nodup_iff.2 hr
  obtain ⟨told, htold⟩ := x.exists_told r e.decision
  refine ⟨told, ((record_argumentTags h).symm.trans htold).trans ?_⟩
  rw [Json.foldl_assign, List.nil_append, List.filter_map]
  · rfl
  · simpa [Named.names, Function.comp_def] using hordered

end Execution

theorem tags_name_arguments {x : Execution} {r : Request} {now : Reading} {e : Evaluation}
    (h : x.evaluate r now = .ok e) :
    e.record.argumentTags.names = r.ordered.names.filter (· != Json.baseName) ∧
      e.record.argumentTags.names.Perm (r.arguments.names.filter (· != Json.baseName)) := by
  rw [← Execution.record_argumentTags h, Execution.names_argumentTags]
  exact ⟨rfl, ((indexFirst_perm r.arguments).map Prod.fst).filter _⟩

namespace Tagging

def file : Request := ⟨"c", "file", [("to", 1), (Json.baseName, 1)], [], [], none, none, none⟩

theorem decision_file : Explanation.mail.decision file (.ok 0) = .ok (.deny (.unlisted "file")) := by
  decide +kernel

end Tagging

open Tagging in
theorem tags_name_arguments_of_file : ∃ e, Explanation.mail.evaluate file (.ok 0) = .ok e ∧
    e.record.argumentTags.names = ["to"] := by
  have hfiled := Execution.evaluate_of_decision decision_file
  have hnames : file.arguments.names.filter (· != Json.baseName) = ["to"] := by decide +kernel
  exact ⟨_, hfiled, List.perm_singleton.1 (hnames ▸ (tags_name_arguments hfiled).2)⟩

open Tagging in
theorem not_tags_name_arguments :
    ¬∀ (x : Execution) (r : Request) (now : Reading) (e : Evaluation), x.evaluate r now = .ok e →
      ∀ name, name ∈ e.record.argumentTags.names ↔ name ∈ r.arguments.names := by
  intro h
  have hname : Json.baseName ∈ file.arguments.names := by simp [file, Named.names]
  have hfiled := Execution.evaluate_of_decision decision_file
  have htags := (h _ _ _ _ hfiled Json.baseName).2 hname
  rw [← Execution.record_argumentTags hfiled, Execution.names_argumentTags, List.mem_filter] at htags
  simp at htags

namespace Confidentiality

variable {c : Confidentiality}

theorem names_of_universal (h : c.universal) : c.names = ["*"] := if_pos h

theorem names_eq_sort (h : ¬c.universal) : c.names = Text.sort c.tags := if_neg h

end Confidentiality

namespace Graph

structure Tells (g : Graph) (budget : Int) (value : Number) (tags : List String) : Prop where
  unknown : g.resolve? value = none → tags = ["*"]
  short : ∀ n, g.resolve? value = some n → budget < (g.ancestry n.id).card → tags = ["*"]
  universal : ∀ n, g.resolve? value = some n →
    (∃ m ∈ g.ancestry n.id, m.confidentiality.universal) → tags = ["*"]
  union : ∀ n, g.resolve? value = some n → (g.ancestry n.id).card ≤ budget →
    (¬∃ m ∈ g.ancestry n.id, m.confidentiality.universal) →
      tags.Nodup ∧ tags.Pairwise (Text.le · ·) ∧
        ∀ tag, tag ∈ tags ↔ ∃ m ∈ g.ancestry n.id, tag ∈ m.confidentiality.tags

variable {g : Graph} {limit value : Number} {budget : Int} {n : Node} {c : Closure}

theorem IsClosure.names {s : Finset Node} (h : IsClosure c s)
    (hnot : ¬∃ m ∈ s, m.confidentiality.universal) :
    c.label.confidentiality.names.Nodup ∧ c.label.confidentiality.names.Pairwise (Text.le · ·) ∧
      ∀ tag, tag ∈ c.label.confidentiality.names ↔ ∃ m ∈ s, tag ∈ m.confidentiality.tags := by
  have hplain := mt h.universal.1 hnot
  rw [Confidentiality.names_eq_sort hplain]
  refine ⟨?_, Text.pairwise_sort _, fun tag => ?_⟩
  · exact (Text.sort_perm _).nodup_iff.2 c.label.confidentiality.nodup
  · rw [Text.mem_sort, h.tags hplain]

theorem tells_closure (hg : Layered g.nodes) (hb : limit.integer? = some budget) (value : Number) :
    g.Tells budget value (Execution.tagNames (g.closure limit value)) := by
  cases hn : g.resolve? value with
  | none =>
      rw [closure_unknown hn]
      exact ⟨fun _ => rfl, by simp [hn], by simp [hn], by simp [hn]⟩
  | some n =>
      obtain ⟨hpaid, hover⟩ := hg.closure_iff hb hn
      cases hc : g.closure limit value with
      | error s =>
          refine ⟨by simp [hn], fun _ _ _ => rfl, fun _ _ _ => rfl, fun m hm hcard => ?_⟩
          obtain rfl : n = m := Option.some_inj.1 (hn.symm.trans hm)
          obtain ⟨c, hok⟩ := hpaid.2 hcard
          cases hc.symm.trans hok
      | ok c =>
          have hall := hg.isClosure hn hc
          have hcard := hpaid.1 ⟨c, hc⟩
          refine ⟨by simp [hn], fun m hm hmore => ?_, fun m hm hstar => ?_, fun m hm _ => ?_⟩ <;>
            obtain rfl : n = m := Option.some_inj.1 (hn.symm.trans hm)
          · exact absurd hmore (Int.not_lt.2 hcard)
          · exact Confidentiality.names_of_universal (hall.universal.2 hstar)
          · exact hall.names

theorem mem_exhibits {maxDepth : Number} {roots : List Root} {expanded : List Nat}
    {e : WitnessArgument} (he : e ∈ g.exhibits maxDepth roots expanded) :
    ∃ root ∈ roots, e.argument = root.argument ∧ e.value = root.value ∧
      e.exhibit.map (·.closure) = (g.resolve? root.value).map fun _ => root.label := by
  induction roots generalizing expanded with
  | nil => cases he
  | cons root roots ih =>
      rw [exhibits] at he
      cases hn : g.resolve? root.value with
      | none =>
          rw [hn] at he
          rcases List.mem_cons.1 he with rfl | he
          · exact ⟨root, List.mem_cons_self, rfl, rfl, by rw [hn]; rfl⟩
          · obtain ⟨other, hother, hshown⟩ := ih he
            exact ⟨other, List.mem_cons_of_mem _ hother, hshown⟩
      | some n =>
          rw [hn] at he
          rcases List.mem_cons.1 he with rfl | he
          · exact ⟨root, List.mem_cons_self, rfl, rfl, by rw [hn]; rfl⟩
          · obtain ⟨other, hother, hshown⟩ := ih he
            exact ⟨other, List.mem_cons_of_mem _ hother, hshown⟩

end Graph

namespace Execution

variable {x : Execution} {r : Request} {now : Reading} {d : Decision} {e : Evaluation}

theorem tagNames_congr {a b : ClosureResult} (h : a.toOption = b.toOption) :
    tagNames a = tagNames b := by
  cases a <;> cases b <;> simp_all [Except.toOption, tagNames]

theorem names_label (root : Root) : root.label.confidentiality.names = tagNames root.closure := by
  unfold Root.label tagNames
  cases root.closure <;> rfl

theorem argumentTags_of_sound (h : d.reason? ≠ some .evaluationFault) :
    x.argumentTags r d = (r.ordered.filter (·.1 != Json.baseName)).map fun a =>
      (a.1, tagNames (x.closure a.2)) := by
  unfold argumentTags
  split
  · exact absurd rfl h
  · rfl

theorem reason_record (h : x.evaluate r now = .ok e) : e.decision.reason? = e.record.reason :=
  congrArg Record.reason (record_of_evaluate h)

theorem evaluate_argumentTags (he : x.evaluate r now = .ok e)
    (h : e.record.reason ≠ some .evaluationFault) :
    e.record.argumentTags = (r.ordered.filter (·.1 != Json.baseName)).map fun a =>
      (a.1, tagNames (x.closure a.2)) := by
  rw [← reason_record he] at h
  rw [← record_argumentTags he, argumentTags_of_sound h]

theorem mem_argumentTags (he : x.evaluate r now = .ok e)
    (h : e.record.reason ≠ some .evaluationFault) {argument : String} {v : Number}
    (ha : (argument, v) ∈ r.arguments) (hname : argument ≠ Json.baseName) :
    (argument, tagNames (x.closure v)) ∈ e.record.argumentTags := by
  rw [evaluate_argumentTags he h]
  refine List.mem_map.2 ⟨(argument, v), List.mem_filter.2 ⟨mem_indexFirst.2 ha, ?_⟩, rfl⟩
  exact bne_iff_ne.2 hname

theorem mem_witness_label {w : Witness} (hw : x.witness r d = some w) {e : WitnessArgument}
    (he : e ∈ w.arguments) : (e.argument, e.value) ∈ explained r d ∧
      e.exhibit.map (·.closure) = (x.graph.resolve? e.value).map fun _ =>
        (⟨e.argument, e.value, x.closure e.value⟩ : Root).label := by
  unfold witness at hw
  split at hw
  · cases hw
  · cases hw
    obtain ⟨root, hroot, hargument, hvalue, hshown⟩ := Graph.mem_exhibits he
    obtain ⟨a, ha, rfl⟩ := List.mem_map.1 hroot
    rw [hargument, hvalue]
    exact ⟨ha, hshown⟩

theorem mem_witness {w : Witness} (hw : x.witness r d = some w) {e : WitnessArgument}
    (he : e ∈ w.arguments) : (e.argument, e.value) ∈ explained r d ∧
      e.exhibit.map (·.closure.confidentiality.names) =
        (x.graph.resolve? e.value).map fun _ => tagNames (x.closure e.value) := by
  obtain ⟨hexplained, hshown⟩ := mem_witness_label hw he
  have hnames := congrArg (Option.map fun l : Label => l.confidentiality.names) hshown
  exact ⟨hexplained, by simpa [names_label, Function.comp_def] using hnames⟩

end Execution

theorem Number.integer?_of_isInteger {x : Number} (h : x.isInteger) : ∃ i, x.integer? = some i := by
  cases x with
  | nan => cases h
  | infinite negative => cases h
  | finite negative units fits => exact ⟨_, if_pos h⟩

theorem tags_agree {x : Execution} {r : Request} {now : Reading} {v : Evaluation}
    (hp : x.policy.Compiled) (hg : x.graph.Reached) (hr : r.arguments.names.Nodup)
    (hv : x.evaluate r now = .ok v) (h : v.record.reason ≠ some .evaluationFault) :
    ∃ budget, x.policy.budgets.closureSteps.integer? = some budget ∧
      ∀ argument tags, (argument, tags) ∈ v.record.argumentTags →
        ∃ value, r.arguments.get? argument = some value ∧ x.graph.Tells budget value tags ∧
          (∀ asked, Execution.tagNames (((ClosureEngine.new x.policy.budgets.closureSteps).after
            x.graph asked).ask x.graph value).1 = tags) ∧
          ∀ w, v.witness = some w → ∀ e ∈ w.arguments, e.argument = argument →
            e.value = value ∧ (e.exhibit.isSome ↔ (x.graph.resolve? value).isSome) ∧
              ∀ shown, e.exhibit = some shown → shown.closure.confidentiality.names = tags := by
  obtain ⟨budget, hb⟩ := Number.integer?_of_isInteger hp.closureSteps
  refine ⟨budget, hb, fun argument tags hmem => ?_⟩
  rw [Execution.evaluate_argumentTags hv h] at hmem
  obtain ⟨⟨name, value⟩, hordered, heq⟩ := List.mem_map.1 hmem
  cases heq
  have hvalue : r.arguments.get? name = some value :=
    Named.get?_of_mem hr (mem_indexFirst.1 (List.mem_filter.1 hordered).1)
  refine ⟨value, hvalue, Graph.tells_closure hg.layered hb value, fun asked => ?_, ?_⟩
  · exact Execution.tagNames_congr (ClosureEngine.ask_after x.graph _ asked value)
  · rintro w hw e he rfl
    rw [← Execution.witness_of_evaluate hv] at hw
    obtain ⟨hexplained, hshown⟩ := Execution.mem_witness hw he
    have hmem := Execution.mem_arguments_of_explained (Execution.evaluate_ok.1 hv).1 hexplained
    have hsame := Named.get?_of_mem hr hmem
    obtain rfl : e.value = value := Option.some_inj.1 (hsame.symm.trans hvalue)
    refine ⟨rfl, ?_, fun shown hs => ?_⟩
    · simpa using congrArg Option.isSome hshown
    · rw [hs, Option.map_some] at hshown
      obtain ⟨n, -, htags⟩ := Option.map_eq_some_iff.1 hshown.symm
      exact htags.symm

namespace Tagging

def desk : Execution := ⟨"e", Reference.mailPolicy, Explanation.mail.graph, .empty⟩

def post : Request := ⟨"c", "send", [("to", 3), ("cc", 7)], [], [], none, none, none⟩

def refusal : Decision := .deny (.integrity "to" 3 .untrusted .trusted)

theorem decision_post : desk.decision post (.ok 0) = .ok refusal := by
  decide +kernel

end Tagging

open Tagging in
theorem tags_agree_of_desk :
    desk.graph.Tells 8 3 ["secret", "web"] ∧ desk.graph.Tells 8 7 ["*"] ∧
      ∃ v w, desk.evaluate post (.ok 0) = .ok v ∧ v.witness = some w ∧
        ∀ e ∈ w.arguments, e.argument = "to" → e.value = 3 ∧ e.exhibit.isSome ∧
          ∀ shown, e.exhibit = some shown →
            shown.closure.confidentiality.names = ["secret", "web"] := by
  have hp : desk.policy.Compiled := Reference.mailPolicy_compiled
  have hg : desk.graph.Reached := Explanation.mail_reached
  have hr : post.arguments.names.Nodup := by decide +kernel
  have hv := Execution.evaluate_of_decision decision_post
  have hreason : (desk.report post refusal).record.reason ≠ some .evaluationFault := by
    decide +kernel
  have hto : Execution.tagNames (desk.closure 3) = ["secret", "web"] := by decide +kernel
  have hcc : Execution.tagNames (desk.closure 7) = ["*"] := by decide +kernel
  have hstored : (desk.graph.resolve? 3).isSome := by decide +kernel
  have height : desk.policy.budgets.closureSteps.integer? = some 8 := by decide +kernel
  obtain ⟨budget, hbudget, hall⟩ := tags_agree hp hg hr hv hreason
  obtain rfl : budget = 8 := Option.some_inj.1 (hbudget.symm.trans height)
  obtain ⟨value, hvalue, htells, -, hwitness⟩ :=
    hall "to" _ (Execution.mem_argumentTags hv hreason (v := 3) (by simp [post]) (by decide))
  obtain rfl : 3 = value := Option.some_inj.1 hvalue
  obtain ⟨other, hother, hunknown, -⟩ :=
    hall "cc" _ (Execution.mem_argumentTags hv hreason (v := 7) (by simp [post]) (by decide))
  obtain rfl : 7 = other := Option.some_inj.1 hother
  rw [hto] at htells hwitness
  rw [hcc] at hunknown
  refine ⟨htells, hunknown, _, _, hv, rfl, fun e he heq => ?_⟩
  obtain ⟨hsame, hexhibit, hnames⟩ := hwitness _ rfl e he heq
  exact ⟨hsame, hexhibit.2 hstored, hnames⟩

end ToolGate
