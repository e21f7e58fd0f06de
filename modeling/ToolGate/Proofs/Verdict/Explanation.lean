import ToolGate.Proofs.Provenance.Unfolding
import ToolGate.Proofs.Verdict.Checks
import ToolGate.Verdict.Evaluation

namespace ToolGate

open Cascade (DeniedBy)

variable {x : Execution} {r : Request} {rule : ToolRule} {now : Reading} {e : Evaluation}

namespace Cascade

theorem DeniedBy.of_argument {d : Denial} {argument : String} {value : Number}
    (h : DeniedBy x rule r now d) (hd : d.argument? = some (argument, value)) :
    r.arguments.get? argument = some value ∧ ∃ a ∈ rule.argRules, a.argument = argument ∧
      (checkIntegrityOf x (a, value) = some d ∨ checkConfidentialityOf x (a, value) = some d) := by
  cases h with
  | carriage => cases hd
  | context h =>
      obtain ⟨_, rfl⟩ := checkContext_some h
      cases hd
  | authority h =>
      obtain ⟨_, rfl⟩ := checkAuthority_some h
      cases hd
  | fault => cases hd
  | @integrity a v _ ha hvalue h =>
      have hnamed : d.argument? = some (a.argument, v) := by
        rcases checkIntegrityOf_some h with ⟨_, -, rfl⟩ | ⟨_, _, -, -, -, rfl⟩ <;> rfl
      cases hnamed.symm.trans hd
      exact ⟨hvalue, a, ha, rfl, .inl h⟩
  | @confidentiality a v _ ha hvalue h =>
      have hnamed : d.argument? = some (a.argument, v) := by
        rcases checkConfidentialityOf_some h with ⟨_, -, rfl⟩ | ⟨_, -, -, rfl⟩ <;> rfl
      cases hnamed.symm.trans hd
      exact ⟨hvalue, a, ha, rfl, .inr h⟩
  | default => cases hd

theorem DeniedBy.shortfall_inv {argument : String} {value : Number} {s : Shortfall}
    (h : DeniedBy x rule r now (.shortfall argument value s)) : x.closure value = .error s := by
  obtain ⟨-, a, -, -, hd | hd⟩ := h.of_argument rfl
  · rcases checkIntegrityOf_some hd with ⟨_, hs, hd⟩ | ⟨_, _, -, -, -, hd⟩ <;> cases hd
    exact hs
  · rcases checkConfidentialityOf_some hd with ⟨_, hs, hd⟩ | ⟨_, -, -, hd⟩ <;> cases hd
    exact hs

theorem DeniedBy.integrity_inv {argument : String} {value : Number} {actual required : Integrity}
    (h : DeniedBy x rule r now (.integrity argument value actual required)) :
    r.arguments.get? argument = some value ∧
      (∃ a ∈ rule.argRules, a.argument = argument ∧ a.requires = some required) ∧
      ∃ c, x.closure value = .ok c ∧ ¬c.label.integrity.satisfies required := by
  obtain ⟨hvalue, a, ha, hname, hd | hd⟩ := h.of_argument rfl
  · rcases checkIntegrityOf_some hd with ⟨_, -, hd⟩ | ⟨_, c, hrequired, hc, hfail, hd⟩ <;> cases hd
    exact ⟨hvalue, ⟨a, ha, hname, hrequired⟩, c, hc, hfail⟩
  · rcases checkConfidentialityOf_some hd with ⟨_, -, hd⟩ | ⟨_, -, -, hd⟩ <;> cases hd

theorem DeniedBy.forbidden_inv {argument : String} {value : Number} {tags : List String}
    (h : DeniedBy x rule r now (.forbidden argument value tags)) :
    r.arguments.get? argument = some value ∧
      (∃ a ∈ rule.argRules, a.argument = argument ∧ tags ≠ [] ∧ tags.Sublist a.forbids) ∧
      ∃ c, x.closure value = .ok c ∧ ∀ tag ∈ tags, c.label.confidentiality.carries tag := by
  obtain ⟨hvalue, a, ha, hname, hd | hd⟩ := h.of_argument rfl
  · rcases checkIntegrityOf_some hd with ⟨_, -, hd⟩ | ⟨_, _, -, -, -, hd⟩ <;> cases hd
  · rcases checkConfidentialityOf_some hd with ⟨_, -, hd⟩ | ⟨c, hc, hpresent, hd⟩ <;> cases hd
    refine ⟨hvalue, ⟨a, ha, hname, hpresent, List.filter_sublist⟩, c, hc, fun tag htag => ?_⟩
    exact (List.mem_filter.1 htag).2

end Cascade

theorem deniedBy_of_decision {d : Denial} (h : x.decision r now = .ok (.deny d)) :
    (∃ tool, d = .unlisted tool) ∨ (∃ tool fault, d = .malformed tool fault) ∨
      ∃ rule, x.policy.rules.get? r.tool = some (.rule rule) ∧ DeniedBy x rule r now d := by
  rw [Execution.decision_ok, Cascade.judge] at h
  split at h
  · obtain h | ⟨f, text, h, -⟩ := h
    · split at h <;> cases h
      exact .inl ⟨_, rfl⟩
    · cases h
  · obtain h | ⟨f, text, h, -⟩ := h
    · cases h
      exact .inr (.inl ⟨_, _, rfl⟩)
    · cases h
  · rename_i rule hrule
    refine .inr (.inr ⟨rule, hrule, ?_⟩)
    obtain h | ⟨f, text, h, htext, hd⟩ := h
    · exact Cascade.deniedBy_of_judgeRule h
    · cases hd
      exact .fault (Cascade.judgeRule_error h) htext

theorem Confidentiality.shown_of_carries {c : Confidentiality} {tag : String} (h : c.carries tag) :
    c.universal ∨ tag ∈ c.names := by
  rw [carries_iff] at h
  by_cases huniversal : c.universal
  · exact .inl huniversal
  · right
    simpa [names, huniversal, Text.sort, mem_sortBy] using h

structure Witness.LaysOpen (w : Witness) (g : Graph) (argument : String) (value : Number) (n : Node)
    (rows : List Trace.Row) : Prop where
  stored : g.resolve? value = some n
  alone : ∃ e, w.arguments = [⟨argument, value, some e⟩] ∧ e.trace.rows = rows
  ancestry : ∀ m, m ∈ rows.map Trace.Row.value ↔ m ∈ g.ancestry n.id

namespace Witness.LaysOpen

variable {w : Witness} {g : Graph} {argument : String} {value : Number} {n : Node}
  {rows : List Trace.Row} {l : Label}

theorem exists_row (h : w.LaysOpen g argument value n rows) {m : Node}
    (hm : m ∈ g.ancestry n.id) : ∃ row ∈ rows, row.value = m :=
  List.mem_map.1 ((h.ancestry m).2 hm)

theorem unsatisfying (h : w.LaysOpen g argument value n rows)
    (hl : Graph.Sums n (g.ancestry n.id) l) {required : Integrity}
    (hfail : ¬l.integrity.satisfies required) :
    ∃ row ∈ rows, ¬row.value.mark.integrity.satisfies required := by
  rw [hl.satisfies, not_forall] at hfail
  obtain ⟨m, hm⟩ := hfail
  obtain ⟨hm, hfail⟩ := Classical.not_imp.1 hm
  obtain ⟨row, hrow, rfl⟩ := h.exists_row hm
  exact ⟨row, hrow, hfail⟩

theorem carrying (h : w.LaysOpen g argument value n rows)
    (hl : Graph.Sums n (g.ancestry n.id) l) {tag : String}
    (htag : l.confidentiality.carries tag) :
    ∃ row ∈ rows, row.value.confidentiality.universal ∨ tag ∈ row.value.confidentiality.names := by
  obtain ⟨m, hm, hcarries⟩ := (hl.carries tag).1 htag
  obtain ⟨row, hrow, rfl⟩ := h.exists_row hm
  exact ⟨row, hrow, Confidentiality.shown_of_carries hcarries⟩

end Witness.LaysOpen

theorem Graph.laysOpen_witness {g : Graph} (hg : Layered g.nodes) {maxDepth : Number} {root : Root}
    {n : Node} (hn : g.resolve? root.value = some n)
    (whole : ¬(g.witness maxDepth [root]).isTruncated) :
    (g.witness maxDepth [root]).LaysOpen g root.argument root.value n
      (g.trace maxDepth n []).1.rows := by
  have harguments : (g.witness maxDepth [root]).arguments =
      [⟨root.argument, root.value, some ⟨root.label, (g.trace maxDepth n []).1⟩⟩] := by
    simp [witness, exhibits, hn]
  refine ⟨hn, ⟨_, harguments, rfl⟩, fun m => hg.mem_trace (resolve?_some hn) ?_⟩
  simpa [Witness.isTruncated, harguments] using whole

theorem witness_of_denial (hg : x.graph.Reached) {d : Denial} {argument : String} {value : Number}
    {c : Closure} (hd : d.argument? = some (argument, value)) (hc : x.closure value = .ok c) :
    ∃ w n rows, x.witness r (.deny d) = some w ∧ Graph.Sums n (x.graph.ancestry n.id) c.label ∧
      (¬w.isTruncated → w.LaysOpen x.graph argument value n rows) := by
  obtain ⟨n, hn⟩ := Graph.resolve?_of_closure hc
  have hroots : Execution.explained r (.deny d) = [(argument, value)] := by
    cases d <;> cases hd <;> rfl
  have hw : x.witness r (.deny d) = some
      (x.graph.witness x.policy.budgets.witnessDepth [⟨argument, value, x.closure value⟩]) := by
    simp [Execution.witness, hroots]
  exact ⟨_, n, _, hw, hg.layered.closure_sums hn hc, Graph.laysOpen_witness hg.layered hn⟩

theorem deniedBy_of_argument {d : Denial} {argument : String × Number}
    (h : x.decision r now = .ok (.deny d)) (hd : d.argument? = some argument) :
    ∃ rule, x.policy.rules.get? r.tool = some (.rule rule) ∧ DeniedBy x rule r now d := by
  rcases deniedBy_of_decision h with ⟨_, rfl⟩ | ⟨_, _, rfl⟩ | hrule
  · cases hd
  · cases hd
  · exact hrule

def Policy.Governs (p : Policy) (r : Request) (argument : String) (value : Number)
    (kind : ArgRule → Prop) : Prop :=
  ∃ rule, p.rules.get? r.tool = some (.rule rule) ∧ r.arguments.get? argument = some value ∧
    ∃ a ∈ rule.argRules, a.argument = argument ∧ kind a

theorem label_denial_explained (hg : x.graph.Reached) (h : x.evaluate r now = .ok e) :
    (∀ argument value actual required,
      e.decision = .deny (.integrity argument value actual required) →
      x.policy.Governs r argument value (·.requires = some required) ∧
      ∃ w, e.witness = some w ∧
        (¬w.isTruncated → ∃ n rows, w.LaysOpen x.graph argument value n rows ∧
          ∃ row ∈ rows, ¬row.value.mark.integrity.satisfies required)) ∧
    ∀ argument value tags,
      e.decision = .deny (.forbidden argument value tags) →
      x.policy.Governs r argument value (fun a => tags ≠ [] ∧ tags.Sublist a.forbids) ∧
      ∃ w, e.witness = some w ∧
        (¬w.isTruncated → ∃ n rows, w.LaysOpen x.graph argument value n rows ∧
          ∀ tag ∈ tags, ∃ row ∈ rows, row.value.confidentiality.universal ∨
            tag ∈ row.value.confidentiality.names) := by
  have hdecision := (Execution.evaluate_ok.1 h).1
  have hwitness := Execution.witness_of_evaluate h
  constructor
  · intro argument value actual required hd
    rw [hd] at hdecision hwitness
    obtain ⟨rule, hrule, hdenied⟩ := deniedBy_of_argument hdecision rfl
    obtain ⟨hvalue, hkind, c, hc, hfail⟩ := hdenied.integrity_inv
    obtain ⟨w, n, rows, hw, hsums, hopen⟩ :=
      witness_of_denial (r := r) (d := .integrity argument value actual required) hg rfl hc
    refine ⟨⟨rule, hrule, hvalue, hkind⟩, w, hwitness.symm.trans hw, fun whole => ?_⟩
    exact ⟨n, rows, hopen whole, (hopen whole).unsatisfying hsums hfail⟩
  · intro argument value tags hd
    rw [hd] at hdecision hwitness
    obtain ⟨rule, hrule, hdenied⟩ := deniedBy_of_argument hdecision rfl
    obtain ⟨hvalue, hkind, c, hc, hcarries⟩ := hdenied.forbidden_inv
    obtain ⟨w, n, rows, hw, hsums, hopen⟩ :=
      witness_of_denial (r := r) (d := .forbidden argument value tags) hg rfl hc
    refine ⟨⟨rule, hrule, hvalue, hkind⟩, w, hwitness.symm.trans hw, fun whole => ?_⟩
    exact ⟨n, rows, hopen whole, fun tag htag => (hopen whole).carrying hsums (hcarries tag htag)⟩

namespace Explanation

def mailRule : ToolRule :=
  ⟨"send", .externalWrite, [], [⟨"to", some .trusted, []⟩, ⟨"body", none, ["pii", "secret"]⟩], [],
    .allow⟩

def policy : Policy :=
  ⟨"mail", false, true, ⟨10, 4, 8, 4⟩, [("send", .rule mailRule)]⟩

def page : Node := ⟨1, .plain .untrusted, .ofTags ["web"] false, [], "literal"⟩

def key : Node := ⟨2, .plain .trusted, .ofTags ["secret"] false, [], "literal"⟩

def extract : Node := ⟨3, .plain .trusted, .ofTags [] false, [1, 2], "extract"⟩

def note : Node := ⟨4, .plain .trusted, .ofTags [] false, [2, 3], "summary"⟩

def mail : Execution := ⟨"e", policy, ⟨⟨10, 4⟩, [note, extract, key, page]⟩, .empty⟩

def send (recipient body : Number) : Request :=
  ⟨"c", "send", [("to", recipient), ("body", body)], [], [], none, none, none⟩

theorem mail_reached : mail.graph.Reached :=
  (((Graph.Reached.empty ⟨10, 4⟩ |>.add page (by decide +kernel)).add key (by decide +kernel)).add
    extract (by decide +kernel)).add note (by decide +kernel)

end Explanation

open Explanation in
theorem label_denial_explained_of_note :
    mail.graph.Reached ∧
      (∃ e w n rows, mail.evaluate (send 4 1) (.ok 0) = .ok e ∧ e.witness = some w ∧
        w.LaysOpen mail.graph "to" 4 n rows ∧
        ∃ row ∈ rows, ¬row.value.mark.integrity.satisfies .trusted) ∧
      ∃ e w n rows, mail.evaluate (send 2 4) (.ok 0) = .ok e ∧ e.witness = some w ∧
        w.LaysOpen mail.graph "body" 4 n rows ∧
        ∃ row ∈ rows, row.value.confidentiality.universal ∨
          "secret" ∈ row.value.confidentiality.names := by
  have hto : mail.decision (send 4 1) (.ok 0) =
      .ok (.deny (.integrity "to" 4 .untrusted .trusted)) := by
    decide +kernel
  have hbody : mail.decision (send 2 4) (.ok 0) =
      .ok (.deny (.forbidden "body" 4 ["secret"])) := by
    decide +kernel
  have htoWhole : (mail.witness (send 4 1) (.deny (.integrity "to" 4 .untrusted .trusted))).all
      (!·.isTruncated) := by
    decide +kernel
  have hbodyWhole : (mail.witness (send 2 4) (.deny (.forbidden "body" 4 ["secret"]))).all
      (!·.isTruncated) := by
    decide +kernel
  have hsent := Execution.evaluate_of_decision hto
  have hsent' := Execution.evaluate_of_decision hbody
  obtain ⟨-, w, hw, hopen⟩ := (label_denial_explained mail_reached hsent).1 _ _ _ _ rfl
  obtain ⟨-, w', hw', hopen'⟩ := (label_denial_explained mail_reached hsent').2 _ _ _ rfl
  obtain ⟨n, rows, hrows, hrow⟩ := hopen (by simpa using (Option.all_eq_true _ _).1 htoWhole w hw)
  obtain ⟨n', rows', hrows', htags⟩ :=
    hopen' (by simpa using (Option.all_eq_true _ _).1 hbodyWhole w' hw')
  exact ⟨mail_reached, ⟨_, w, n, rows, hsent, hw, hrows, hrow⟩,
    _, w', n', rows', hsent', hw', hrows', htags "secret" (by simp)⟩

end ToolGate
