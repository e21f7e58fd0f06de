import ToolGate.Proofs.Provenance.Outline
import ToolGate.Proofs.Verdict.Tagging

namespace ToolGate

namespace Confidentiality

variable {a b c : Confidentiality}

def IsLoneStar (c : Confidentiality) : Prop :=
  ¬c.universal ∧ c.tags = ["*"]

theorem names_eq_star (h : ¬c.universal) : c.names = ["*"] ↔ c.tags = ["*"] := by
  have hsingle : Text.sort ["*"] = ["*"] := List.perm_singleton.1 (Text.sort_perm _)
  have hsorted : Text.sort c.tags = Text.sort ["*"] ↔ c.tags = ["*"] :=
    Text.sort_inj.trans List.perm_singleton
  rwa [hsingle, ← names_eq_sort h] at hsorted

theorem names_eq_names : a.names = b.names ↔
    a.universal ∧ b.universal ∨
    (¬a.universal ∧ ¬b.universal ∧ ∀ tag, tag ∈ a.tags ↔ tag ∈ b.tags) ∨
    (a.universal ∧ b.IsLoneStar ∨ a.IsLoneStar ∧ b.universal) := by
  by_cases ha : a.universal <;> by_cases hb : b.universal
  · simp [ha, hb, names_of_universal]
  · rw [names_of_universal ha, eq_comm, names_eq_star hb]
    simp [ha, hb, IsLoneStar]
  · rw [names_of_universal hb, names_eq_star ha]
    simp [ha, hb, IsLoneStar]
  · rw [names_eq_sort ha, names_eq_sort hb, Text.sort_inj,
      List.perm_ext_iff_of_nodup a.nodup b.nodup]
    simp [ha, hb, IsLoneStar]

theorem star_mem_all : "*" ∈ Confidentiality.all.names :=
  List.mem_singleton.2 rfl

theorem star_mem_names (h : ¬c.universal → "*" ∉ c.tags) : "*" ∈ c.names ↔ c.universal := by
  by_cases hc : c.universal
  · simp [names_of_universal hc, hc]
  · rw [names_eq_sort hc, Text.mem_sort]
    exact iff_of_false (h hc) hc

end Confidentiality

namespace Graph

variable {g : Graph} {limit value : Number} {n : Node} {c : Closure}

def Starless (g : Graph) : Prop :=
  ∀ n ∈ g.nodes, ¬n.confidentiality.universal → "*" ∉ n.confidentiality.tags

instance (g : Graph) : Decidable g.Starless :=
  inferInstanceAs
    (Decidable (∀ n ∈ g.nodes, ¬n.confidentiality.universal → "*" ∉ n.confidentiality.tags))

theorem Starless.closure (hs : g.Starless) (hg : Layered g.nodes) (hn : g.resolve? value = some n)
    (hc : g.closure limit value = .ok c) : "*" ∈ c.label.confidentiality.names ↔
      ∃ m ∈ g.ancestry n.id, m.confidentiality.universal := by
  have hall := hg.isClosure hn hc
  rw [Confidentiality.star_mem_names, hall.universal]
  intro hplain hstar
  obtain ⟨m, hm, hmem⟩ := (hall.tags hplain "*").1 hstar
  have hordinary : ¬m.confidentiality.universal := fun h => hplain (hall.universal.2 ⟨m, hm, h⟩)
  exact hs m (mem_ancestry.1 hm).1 hordinary hmem

theorem Starless.witness (hs : g.Starless) (maxDepth : Number) (roots : List Root) :
    ∀ e ∈ (g.witness maxDepth roots).arguments, ∀ shown, e.exhibit = some shown →
      ∀ row ∈ shown.trace.rows,
        "*" ∈ row.value.confidentiality.names ↔ row.value.confidentiality.universal := by
  intro e he shown hshown row hrow
  obtain ⟨after, h⟩ := g.witness_unfolds maxDepth roots
  have htrace : shown.trace ∈ (g.witness maxDepth roots).traces :=
    List.mem_filterMap.2 ⟨e, he, by rw [hshown, Option.map_some]⟩
  have hsight : row.sight ∈ Trace.sightsOfAll (g.witness maxDepth roots).traces := by
    refine Trace.mem_sightsOfAll.2 ⟨_, htrace, ?_⟩
    rw [← Trace.sight_rows]
    exact List.mem_map_of_mem hrow
  have hstored := (get?_some (h.sound _ hsight).1).1
  exact Confidentiality.star_mem_names (hs _ hstored)

end Graph

namespace Execution

variable {x : Execution} {r : Request} {now : Reading}

/-- Nothing limits what can be in a value: the evaluation has failed, the value has no closure, or it
comes from one with the universal label. -/
def Limitless (x : Execution) (d : Decision) (value : Number) : Prop :=
  (∃ f, d = .deny (.fault f)) ∨ (∃ s, x.closure value = .error s) ∨
    ∃ n, x.graph.resolve? value = some n ∧ ∃ m ∈ x.graph.ancestry n.id, m.confidentiality.universal

theorem star_mem_tagNames (hs : x.graph.Starless) (hg : x.graph.Reached) (value : Number) :
    "*" ∈ tagNames (x.closure value) ↔ (∃ s, x.closure value = .error s) ∨
      ∃ n, x.graph.resolve? value = some n ∧
        ∃ m ∈ x.graph.ancestry n.id, m.confidentiality.universal := by
  cases hc : x.closure value with
  | error s => exact iff_of_true Confidentiality.star_mem_all (.inl ⟨s, rfl⟩)
  | ok c =>
      obtain ⟨n, hn⟩ := Graph.resolve?_of_closure hc
      rw [tagNames, hs.closure hg.layered hn hc]
      simp [hn]

theorem star_mem_argumentTags (hs : x.graph.Starless) (hg : x.graph.Reached) {d : Decision}
    {argument : String} {tags : List String} (h : (argument, tags) ∈ x.argumentTags r d) :
    ∃ value, (argument, value) ∈ r.arguments ∧ ("*" ∈ tags ↔ x.Limitless d value) := by
  obtain ⟨⟨name, value⟩, hordered, heq⟩ := List.mem_map.1 h
  cases heq
  refine ⟨value, mem_indexFirst.1 (List.mem_filter.1 hordered).1, ?_⟩
  dsimp only
  split
  · exact iff_of_true Confidentiality.star_mem_all (.inl ⟨_, rfl⟩)
  · rename_i hsound
    have hplain : ¬∃ f, d = .deny (.fault f) := fun ⟨f, hf⟩ => hsound f hf
    rw [star_mem_tagNames hs hg, Limitless, or_iff_right hplain]

theorem star_mem_shown (hs : x.graph.Starless) (hg : x.graph.Reached) {d : Decision} {w : Witness}
    (hw : x.witness r d = some w) {e : WitnessArgument} (he : e ∈ w.arguments) {shown : Exhibit}
    (hshown : e.exhibit = some shown) :
    ("*" ∈ shown.closure.confidentiality.names ↔ shown.closure.confidentiality.universal) ∧
      ∀ row ∈ shown.trace.rows,
        "*" ∈ row.value.confidentiality.names ↔ row.value.confidentiality.universal := by
  constructor
  · obtain ⟨-, hlabel⟩ := mem_witness_label hw he
    rw [hshown, Option.map_some, eq_comm, Option.map_eq_some_iff] at hlabel
    obtain ⟨n, hn, hlabel⟩ := hlabel
    rw [← hlabel, Root.label]
    cases hc : x.closure e.value with
    | error s => exact iff_of_true Confidentiality.star_mem_all rfl
    | ok c =>
        rw [hs.closure hg.layered hn hc, (hg.layered.isClosure hn hc).universal]
  · unfold witness at hw
    split at hw
    · cases hw
    · cases hw
      exact hs.witness _ _ e he shown hshown

end Execution

theorem names_identify (a b : Confidentiality) (x : Execution) :
    (a.names = b.names ↔
      a.universal ∧ b.universal ∨
      (¬a.universal ∧ ¬b.universal ∧ ∀ tag, tag ∈ a.tags ↔ tag ∈ b.tags) ∨
      (a.universal ∧ b.IsLoneStar ∨ a.IsLoneStar ∧ b.universal)) ∧
    (x.graph.Reached → x.graph.Starless → ∀ (r : Request) (now : Reading) (v : Evaluation),
      x.evaluate r now = .ok v →
      (∀ argument tags, (argument, tags) ∈ v.record.argumentTags →
        ∃ value, (argument, value) ∈ r.arguments ∧ ("*" ∈ tags ↔ x.Limitless v.decision value)) ∧
      ∀ w, v.witness = some w → ∀ e ∈ w.arguments, ∀ shown,
        e.exhibit = some shown →
        ("*" ∈ shown.closure.confidentiality.names ↔ shown.closure.confidentiality.universal) ∧
        ∀ row ∈ shown.trace.rows,
          "*" ∈ row.value.confidentiality.names ↔ row.value.confidentiality.universal) := by
  refine ⟨Confidentiality.names_eq_names, fun hg hs r now v hv => ⟨?_, ?_⟩⟩
  · intro argument tags htags
    rw [← Execution.record_argumentTags hv] at htags
    exact Execution.star_mem_argumentTags hs hg htags
  · intro w hw e he shown hshown
    rw [← Execution.witness_of_evaluate hv] at hw
    exact Execution.star_mem_shown hs hg hw he hshown

open Tagging in
theorem names_identify_of_desk :
    ¬desk.Limitless refusal 3 ∧ desk.Limitless refusal 7 ∧
      ∃ v w, desk.evaluate post (.ok 0) = .ok v ∧ v.witness = some w ∧
        ∀ e ∈ w.arguments, ∀ shown, e.exhibit = some shown → ∀ row ∈ shown.trace.rows,
          "*" ∈ row.value.confidentiality.names ↔ row.value.confidentiality.universal := by
  have hstarless : desk.graph.Starless := by decide +kernel
  have hv := Execution.evaluate_of_decision decision_post
  have hreason : (desk.report post refusal).record.reason ≠ some .evaluationFault := by
    decide +kernel
  have hto : "*" ∉ Execution.tagNames (desk.closure 3) := by decide +kernel
  have hcc : "*" ∈ Execution.tagNames (desk.closure 7) := by decide +kernel
  obtain ⟨hrecord, hwitness⟩ :=
    (names_identify .all .all desk).2 Explanation.mail_reached hstarless post (.ok 0) _ hv
  obtain ⟨value, hsent, hknown⟩ :=
    hrecord "to" _ (Execution.mem_argumentTags hv hreason (v := 3) (by simp [post]) (by decide))
  obtain ⟨copied, hcopied, hunknown⟩ :=
    hrecord "cc" _ (Execution.mem_argumentTags hv hreason (v := 7) (by simp [post]) (by decide))
  have hr : post.arguments.names.Nodup := by decide +kernel
  obtain rfl : 3 = value := Option.some_inj.1 (Named.get?_of_mem hr hsent)
  obtain rfl : 7 = copied := Option.some_inj.1 (Named.get?_of_mem hr hcopied)
  exact ⟨mt hknown.2 hto, hunknown.1 hcc, _, _, hv, rfl,
    fun e he shown hshown => (hwitness _ rfl e he shown hshown).2⟩

namespace Tagging

def starred : Node := ⟨1, .plain .trusted, .ofTags ["*"] false, [], literalKind⟩

def limitless : Node := ⟨2, .plain .trusted, .all, [], literalKind⟩

def pair : Graph := ⟨⟨10, 4⟩, [limitless, starred]⟩

theorem pair_reached : pair.Reached :=
  (Graph.Reached.empty ⟨10, 4⟩ |>.add starred (by decide +kernel)).add limitless (by decide +kernel)

end Tagging

open Tagging in
theorem not_names_identify : ¬∀ g : Graph, g.Reached → ∀ n ∈ g.nodes, ∀ m ∈ g.nodes,
    n.confidentiality.names = m.confidentiality.names ↔
      n.confidentiality.universal ∧ m.confidentiality.universal ∨
      ¬n.confidentiality.universal ∧ ¬m.confidentiality.universal ∧
        ∀ tag, tag ∈ n.confidentiality.tags ↔ tag ∈ m.confidentiality.tags := by
  intro hclaim
  have hnames : starred.confidentiality.names = limitless.confidentiality.names := by
    decide +kernel
  rcases (hclaim pair pair_reached starred (by simp [pair]) limitless (by simp [pair])).1 hnames with
    ⟨hstarred, -⟩ | ⟨-, hlimitless, -⟩
  · cases hstarred
  · exact hlimitless rfl

end ToolGate
