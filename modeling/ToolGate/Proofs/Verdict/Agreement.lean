import ToolGate.Proofs.Provenance.Content
import ToolGate.Proofs.Token.Lineage
import ToolGate.Proofs.Verdict.Explanation

namespace ToolGate

namespace Table

variable {t u : Table} {id : String}

structure AgreesOn (t u : Table) (id : String) : Prop where
  unknown : u.get? id = none ↔ t.get? id = none
  shared : ∀ k, t.get? id = some k → ∀ a, t.Above k a → u.get? a.id = some a

theorem AgreesOn.get? (h : t.AgreesOn u id) : u.get? id = t.get? id := by
  cases hk : t.get? id with
  | none => exact h.unknown.2 hk
  | some k =>
      obtain rfl := (get?_some hk).2
      exact h.shared k hk k .refl

theorem chain_of_unknown (h : t.get? id = none) : chain id t.tokens = [] := by
  obtain ⟨ks⟩ := t
  induction ks with
  | nil => rfl
  | cons k ks ih =>
      simp only [Table.get?, List.find?_eq_none, List.forall_mem_cons, beq_iff_eq] at h
      rw [Table.chain, if_neg h.1]
      exact ih (by simpa [Table.get?] using h.2)

theorem AgreesOn.chain (h : t.AgreesOn u id) (ht : t.Sound) (hu : u.Sound) :
    chain id u.tokens = chain id t.tokens := by
  cases hk : t.get? id with
  | none => rw [chain_of_unknown hk, chain_of_unknown (h.unknown.2 hk)]
  | some k =>
      have hshared := h.shared k hk
      refine ht.descend (P := fun id k => (∀ a, t.Above k a → u.get? a.id = some a) →
        Table.chain id u.tokens = Table.chain id t.tokens) ?_ ?_ hk hshared
      · intro id k hk hroot hshared
        obtain rfl := (get?_some hk).2
        rw [hu.chain_of_get? (hshared k .refl), ht.chain_of_get? hk, hroot]
        rfl
      · intro id k p l hk hp hl ih hshared
        obtain rfl := (get?_some hk).2
        have hparent := ih fun a ha => hshared a (.head ⟨p, hp, hl⟩ ha)
        rw [hu.chain_of_get? (hshared k .refl), ht.chain_of_get? hk, hp]
        simp only [Option.elim, hparent]

theorem AgreesOn.validate (h : t.AgreesOn u id) (ht : t.Sound) (hu : u.Sound) (instant : Number) :
    u.validate id instant = t.validate id instant := by
  rw [Table.validate, Table.validate, h.chain ht hu]

end Table

/-- The executions run under one name and one policy, and agree on all that the call can reach: of the
tokens on the records, of the values on the records but for seals and the order of tags. -/
structure Execution.AgreesOn (x y : Execution) (r : Request) : Prop where
  id : y.id = x.id
  policy : y.policy = x.policy
  values : ∀ a ∈ r.arguments, x.graph.content.AgreesOn y.graph.content a.2
  tokens : ∀ id ∈ r.held, x.table.AgreesOn y.table id

variable {x y : Execution} {r : Request} {rule : ToolRule} {now : Reading}

theorem Execution.AgreesOn.closure (h : x.AgreesOn y r) {a : String × Number}
    (ha : a ∈ r.arguments) :
    (y.closure a.2).map Closure.content = (x.closure a.2).map Closure.content := by
  rw [Execution.closure, Execution.closure, h.policy, Graph.closure_alike (h.values a ha)]

namespace Cascade

theorem covered_congr {t u : Table} (h : ∀ id ∈ r.held, t.AgreesOn u id) (ht : t.Sound)
    (hu : u.Sound) (instant : Number) : covered u r instant = covered t r instant := by
  have hcounts : ∀ id ∈ r.held, counts u r instant id = counts t r instant id := by
    intro id hid
    rw [counts, counts, (h id hid).validate ht hu, (h id hid).get?]
  rw [covered, covered, List.filter_congr hcounts]
  congr 1
  exact List.filterMap_congr fun id hid => (h id (List.mem_filter.1 hid).1).get?

theorem checkAuthority_congr {t u : Table} (h : ∀ id ∈ r.held, t.AgreesOn u id) (ht : t.Sound)
    (hu : u.Sound) : checkAuthority u rule r now = checkAuthority t rule r now := by
  simp only [checkAuthority, covered_congr h ht hu]

theorem checkIntegrityOf_congr {b : BoundRule}
    (h : (y.closure b.2).map Closure.content = (x.closure b.2).map Closure.content) :
    checkIntegrityOf y b = checkIntegrityOf x b := by
  obtain ⟨a, value⟩ := b
  obtain ⟨s, hy, hx⟩ | ⟨c, c', hy, hx, halike⟩ := Closure.alike_cases h
  · simp only [checkIntegrityOf, hy, hx]
  · simp only [checkIntegrityOf, hy, hx, halike.integrity]

theorem checkConfidentialityOf_congr {b : BoundRule}
    (h : (y.closure b.2).map Closure.content = (x.closure b.2).map Closure.content) :
    checkConfidentialityOf y b = checkConfidentialityOf x b := by
  obtain ⟨a, value⟩ := b
  obtain ⟨s, hy, hx⟩ | ⟨c, c', hy, hx, halike⟩ := Closure.alike_cases h
  · simp only [checkConfidentialityOf, hy, hx]
  · have hpresent := Confidentiality.present_congr (Label.alike_iff.1 halike).2 a.forbids
    simp only [checkConfidentialityOf, hy, hx, hpresent]

theorem findSome?_bound_congr {bound : List BoundRule}
    (hbound : bindRules r rule.argRules = .ok bound) {check check' : BoundRule → Option Denial}
    (h : ∀ b, (b.1.argument, b.2) ∈ r.arguments → check b = check' b) :
    bound.findSome? check = bound.findSome? check' := by
  rw [← List.head?_filterMap, ← List.head?_filterMap]
  congr 1
  refine List.filterMap_congr fun b hb => h b ?_
  exact Named.mem_of_get? ((mem_bound hbound).1 hb).2

theorem judgeRule_congr (h : x.AgreesOn y r) (hx : x.table.Sound) (hy : y.table.Sound) :
    judgeRule y rule r now = judgeRule x rule r now := by
  unfold judgeRule
  cases hbound : bindRules r rule.argRules with
  | error argument => rfl
  | ok bound =>
      have hintegrity := findSome?_bound_congr hbound fun b hb =>
        checkIntegrityOf_congr (h.closure hb)
      have hconfidentiality := findSome?_bound_congr hbound fun b hb =>
        checkConfidentialityOf_congr (h.closure hb)
      have hconclude : conclude y rule bound = conclude x rule bound := by
        funext uncovered
        simp only [conclude, hintegrity, hconfidentiality]
      simp only [h.policy, checkAuthority_congr h.tokens hx hy, hconclude]

theorem judge_congr (h : x.AgreesOn y r) (hx : x.table.Sound) (hy : y.table.Sound) :
    judge y r now = judge x r now := by
  simp only [judge, h.policy, judgeRule_congr h hx hy]

theorem DeniedBy.argument_inv {d : Denial} {argument : String × Number}
    (h : DeniedBy x rule r now d) (hd : d.argument? = some argument) : argument ∈ r.arguments :=
  Named.mem_of_get? (h.of_argument hd).1

end Cascade

def Evaluation.content (e : Evaluation) : Evaluation :=
  ⟨e.decision, e.witness.map Witness.content, e.record⟩

namespace Execution

theorem mem_arguments_of_explained {d : Decision} {a : String × Number}
    (h : x.decision r now = .ok d) (ha : a ∈ explained r d) : a ∈ r.arguments := by
  cases d with
  | allow => cases ha
  | requireConfirmation | requireDraft => exact mem_indexFirst.1 ha
  | deny d =>
      cases d with
      | unlisted | byDefault => exact mem_indexFirst.1 ha
      | _ =>
          obtain ⟨rule, -, hdenied⟩ := deniedBy_of_argument h (Option.mem_toList.1 ha)
          exact hdenied.argument_inv (Option.mem_toList.1 ha)

theorem witness_alike (h : x.AgreesOn y r) {d : Decision}
    (hd : ∀ a ∈ explained r d, a ∈ r.arguments) :
    (y.witness r d).map Witness.content = (x.witness r d).map Witness.content := by
  have hroots :
      ((explained r d).map fun a => Root.mk a.1 a.2 (y.closure a.2)).map Root.content =
        ((explained r d).map fun a => Root.mk a.1 a.2 (x.closure a.2)).map Root.content := by
    rw [List.map_map, List.map_map]
    exact List.map_congr_left fun a ha => congrArg (Root.mk a.1 a.2) (h.closure (hd a ha))
  have hvalues : ∀ root ∈ (explained r d).map (fun a => (⟨a.1, a.2, x.closure a.2⟩ : Root)),
      x.graph.content.AgreesOn y.graph.content root.value :=
    List.forall_mem_map.2 fun a ha => h.values a (hd a ha)
  unfold witness
  split
  · rfl
  · simp only [Option.map_some, h.policy, Graph.witness_alike hroots hvalues]

theorem witness_congr (h : x.AgreesOn y r)
    (hsame : ∀ a ∈ r.arguments, x.graph.AgreesOn y.graph a.2) {d : Decision}
    (hd : ∀ a ∈ explained r d, a ∈ r.arguments) : y.witness r d = x.witness r d := by
  have hroots : (explained r d).map (fun a => (⟨a.1, a.2, y.closure a.2⟩ : Root)) =
      (explained r d).map fun a => ⟨a.1, a.2, x.closure a.2⟩ := by
    refine List.map_congr_left fun a ha => congrArg (Root.mk a.1 a.2) ?_
    rw [closure, closure, h.policy, Graph.closure_congr (hsame a (hd a ha))]
  have hvalues : ∀ root ∈ (explained r d).map (fun a => (⟨a.1, a.2, x.closure a.2⟩ : Root)),
      x.graph.AgreesOn y.graph root.value :=
    List.forall_mem_map.2 fun a ha => hsame a (hd a ha)
  unfold witness
  split
  · rfl
  · simp only [hroots, h.policy, Graph.witness_congr hvalues]

theorem tagNames_alike {c c' : ClosureResult}
    (h : c.map Closure.content = c'.map Closure.content) : tagNames c = tagNames c' := by
  obtain ⟨s, rfl, rfl⟩ | ⟨c, c', rfl, rfl, halike⟩ := Closure.alike_cases h
  · rfl
  · exact Confidentiality.names_congr halike.confidentiality

theorem argumentTags_congr (h : x.AgreesOn y r) (d : Decision) :
    y.argumentTags r d = x.argumentTags r d := by
  unfold argumentTags
  refine List.map_congr_left fun a ha => ?_
  simp only [tagNames_alike (h.closure (mem_indexFirst.1 (List.mem_filter.1 ha).1))]

theorem record_congr (h : x.AgreesOn y r) (d : Decision) : y.record r d = x.record r d := by
  simp only [record, sideEffect?, h.id, h.policy, argumentTags_congr h]

end Execution

/-- The evaluations differ at most where the records of the values do. -/
theorem evaluate_of_agreement (hx : x.table.Reached) (hy : y.table.Reached) (h : x.AgreesOn y r)
    (now : Reading) :
    (y.evaluate r now).map Evaluation.content = (x.evaluate r now).map Evaluation.content ∧
      ((∀ a ∈ r.arguments, x.graph.AgreesOn y.graph a.2) →
        y.evaluate r now = x.evaluate r now) := by
  have hdecision : y.decision r now = x.decision r now := by
    rw [Execution.decision, Execution.decision, Cascade.judge_congr h hx.sound hy.sound]
  rw [Execution.evaluate, Execution.evaluate, hdecision]
  cases hd : x.decision r now with
  | error f => exact ⟨rfl, fun _ => rfl⟩
  | ok d =>
      have hexplained : ∀ a ∈ Execution.explained r d, a ∈ r.arguments :=
        fun _ => Execution.mem_arguments_of_explained hd
      constructor
      · simp only [Except.map, Evaluation.content, Execution.report,
          Execution.witness_alike h hexplained, Execution.record_congr h]
      · intro hsame
        simp only [Except.map, Execution.report, Execution.witness_congr h hsame hexplained,
          Execution.record_congr h]

namespace Agreement

def mailRule : ToolRule :=
  ⟨"send", .externalWrite, ["mail"], [⟨"to", some .trusted, []⟩], [], .allow⟩

def policy : Policy :=
  ⟨"mail", false, true, ⟨10, 4, 8, 4⟩, [("send", .rule mailRule)]⟩

def page : Node := ⟨1, .sealed ⟨0, "address"⟩, .ofTags ["web", "ads"] false, [], "literal"⟩

def recipient : Node := ⟨4, .plain .trusted, .ofTags [] false, [1], "extract"⟩

def here : Execution :=
  ⟨"e", policy, ⟨⟨10, 4⟩, [recipient, ⟨2, .plain .trusted, .ofTags [] false, [1], "summary"⟩, page]⟩,
    Table.Line.grown⟩

def guest : Token := ⟨"guest", "host", "guest", ["web"], ⟨0, none⟩, none, false⟩

def note : Node := ⟨5, .plain .untrusted, .ofTags ["pii"] false, [4], "summary"⟩

def there : Execution :=
  ⟨"e", policy, ⟨⟨10, 4⟩, [note, recipient, page]⟩, Table.Line.grown.add guest⟩

def retold : Execution :=
  ⟨"e", policy, ⟨⟨10, 4⟩, [note, recipient,
    ⟨1, .sealed ⟨3, "address"⟩, .ofTags ["ads", "web"] false, [], "literal"⟩]⟩,
    Table.Line.grown.add guest⟩

def send : Request :=
  ⟨"c", "send", [("to", 4)], [], ["agent", "nobody"], none, none, none⟩

theorem there_reached : there.table.Reached := by
  have hguest : (Table.Line.grown.mint Table.Line.clock Table.Line.ids
      ⟨some "guest", "host", "guest", ["web"], ⟨some 0, none⟩⟩).1 = .ok (guest, there.table) := by
    decide +kernel
  exact Table.Line.grown_reached.mint hguest

theorem shares_recipient : here.graph.SharesAbove there.graph 4 := by
  intro a ha
  have hline : a = 4 ∨ a = 1 := by
    induction ha with
    | refl => exact .inl rfl
    | tail _ hstep ih =>
        obtain ⟨n, hn, hp⟩ := hstep
        rcases ih with rfl | rfl <;> cases hn <;> simp_all [recipient, page]
  rcases hline with rfl | rfl <;> decide +kernel

theorem recipient_agrees : ∀ a ∈ send.arguments, here.graph.AgreesOn there.graph a.2 := by
  simp only [send, List.mem_singleton, forall_eq]
  have hbound : here.graph.resolve? 4 = some recipient := by decide +kernel
  refine ⟨by decide +kernel, fun n hn => ?_⟩
  cases hbound.symm.trans hn
  exact shares_recipient

theorem held_agree : ∀ id ∈ send.held, here.table.AgreesOn there.table id := by
  have hchain : ∀ a ∈ Table.chain "agent" here.table.tokens, there.table.get? a.id = some a := by
    decide +kernel
  simp only [send, List.forall_mem_cons]
  refine ⟨⟨by decide +kernel, fun k hk a ha => ?_⟩, ⟨by decide +kernel, fun k hk => ?_⟩, by simp⟩
  · exact hchain a ((Table.Line.grown_reached.sound.mem_chain hk).2 ha)
  · cases hk

theorem here_agrees : here.AgreesOn there send :=
  ⟨rfl, rfl, fun a ha => (recipient_agrees a ha).content, held_agree⟩

theorem retold_agrees : here.AgreesOn retold send := by
  have hform : retold.graph.content = there.graph.content := by decide +kernel
  refine ⟨rfl, rfl, ?_, held_agree⟩
  rw [hform]
  exact fun a ha => (recipient_agrees a ha).content

end Agreement

open Agreement in
theorem evaluate_of_agreement_send :
    here.AgreesOn there send ∧ here.graph ≠ there.graph ∧ here.table ≠ there.table ∧
      there.evaluate send (.ok 5) = here.evaluate send (.ok 5) ∧
      there.decision send (.ok 5) = .ok (.deny (.integrity "to" 4 .untrusted .trusted)) ∧
      here.AgreesOn retold send ∧ retold.graph.get? 1 ≠ here.graph.get? 1 ∧
      (retold.evaluate send (.ok 5)).map Evaluation.content =
        (here.evaluate send (.ok 5)).map Evaluation.content := by
  have hsame := evaluate_of_agreement Table.Line.grown_reached there_reached here_agrees (.ok 5)
  have halike := evaluate_of_agreement (y := retold) Table.Line.grown_reached there_reached
    retold_agrees (.ok 5)
  exact ⟨here_agrees, by decide +kernel, by decide +kernel, hsame.2 recipient_agrees,
    by decide +kernel, retold_agrees, by decide +kernel, halike.1⟩

end ToolGate
