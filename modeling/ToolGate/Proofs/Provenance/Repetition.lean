import ToolGate.Proofs.Provenance.Outline

namespace ToolGate.Graph

open Trace (Spot sightsOfAll spotsOfAll firstIds)

variable {g : Graph} {maxDepth : Number} {depth : Nat} {ids after : List Nat} {ts : List Trace}

theorem Unfolds.exists_first (h : g.Unfolds maxDepth depth [] ids ts after) {s : Spot}
    (hs : s ∈ spotsOfAll depth ts) :
    ∃ f ∈ spotsOfAll depth ts, f.value = s.value ∧ f.cut ≠ some .repeated := by
  have hsight : s.sight ∈ sightsOfAll ts := by
    rw [← Trace.sight_spotsOfAll depth]
    exact List.mem_map_of_mem hs
  have hfirst := h.mem_after s.sight hsight
  rw [h.after_eq, List.append_nil, List.mem_reverse, firstIds, ← Trace.sight_spotsOfAll depth,
    List.filter_map, List.map_map, List.mem_map] at hfirst
  obtain ⟨f, hf, hid⟩ := hfirst
  obtain ⟨hf, hcut⟩ := List.mem_filter.1 hf
  refine ⟨f, hf, ?_, of_decide_eq_true hcut⟩
  have hsame : g.get? s.value.id = some f.value := hid ▸ h.stored f hf
  exact Option.some_inj.1 (hsame.symm.trans (h.stored s hs))

theorem Unfolds.eq_of_first (h : g.Unfolds maxDepth depth [] ids ts after) {e f : Spot}
    (he : e ∈ spotsOfAll depth ts) (hf : f ∈ spotsOfAll depth ts) (hvalue : e.value = f.value)
    (hecut : e.cut ≠ some .repeated) (hfcut : f.cut ≠ some .repeated) : e = f := by
  refine List.inj_on_of_nodup_map h.once ?_ ?_ hvalue
  · exact List.mem_filter.2 ⟨he, by simpa using hecut⟩
  · exact List.mem_filter.2 ⟨hf, by simpa using hfcut⟩

theorem expanded_iff_of_repeated (hg : g.Reached) (maxDepth : Number) (roots : List Root) :
    let spots := (g.witness maxDepth roots).spots
    ∀ s ∈ spots, s.cut = some .repeated →
      ((∃ e ∈ spots, e.value = s.value ∧ e.cut = none ∧ e.listed = s.value.parents) ↔
        ∀ f ∈ spots, f.value = s.value → f.cut ≠ some .truncated) := by
  intro spots s hs _
  obtain ⟨after, h⟩ := g.witness_unfolds maxDepth roots
  constructor
  · rintro ⟨e, he, hvalue, hopen, -⟩ f hf hsame hcut
    have heq : e = f := by
      refine h.eq_of_first he hf (hvalue.trans hsame.symm) ?_ ?_
      · rw [hopen]
        nofun
      · rw [hcut]
        decide
    rw [heq, hcut] at hopen
    cases hopen
  · intro hnone
    obtain ⟨f, hf, hvalue, hfirst⟩ := h.exists_first hs
    have hopen : f.cut = none := by
      rcases hcut : f.cut with _ | _ | _
      · rfl
      · exact absurd hcut hfirst
      · exact absurd hcut (hnone f hf hvalue)
    refine ⟨f, hf, hvalue, hopen, ?_⟩
    rw [h.listed hg.layered f hf, if_pos hopen, hvalue]

open Relay

def Relay.again : Spot := ⟨0, extract, some .repeated, []⟩

theorem expanded_iff_of_repeated_extract :
    (∃ e ∈ (graph.witness 2 roots).spots, e.value = extract ∧ e.cut = none ∧ e.listed = [1]) ∧
      ¬∃ e ∈ (graph.witness 1 roots).spots, e.value = extract ∧ e.cut = none ∧ e.listed = [1] := by
  have htwo : again ∈ (graph.witness 2 roots).spots := by decide +kernel
  have hone : again ∈ (graph.witness 1 roots).spots := by decide +kernel
  have hwhole : ∀ f ∈ (graph.witness 2 roots).spots, f.value = extract →
      f.cut ≠ some .truncated := by
    decide +kernel
  have hcut : ¬∀ f ∈ (graph.witness 1 roots).spots, f.value = extract →
      f.cut ≠ some .truncated := by
    decide +kernel
  exact ⟨(expanded_iff_of_repeated reached 2 roots again htwo rfl).2 hwhole,
    mt (expanded_iff_of_repeated reached 1 roots again hone rfl).1 hcut⟩

theorem not_expanded_of_repeated :
    ¬∀ g : Graph, g.Reached → ∀ maxDepth, Number.zero ≤ maxDepth → ∀ roots,
      ∀ s ∈ (g.witness maxDepth roots).spots, s.cut = some .repeated →
        ∃ e ∈ (g.witness maxDepth roots).spots,
          e.value = s.value ∧ e.cut = none ∧ e.listed = s.value.parents := by
  intro h
  have hagain : again ∈ (graph.witness 1 roots).spots := by decide +kernel
  obtain ⟨e, he, hvalue, hopen, -⟩ := h graph reached 1 (by decide +kernel) roots again hagain rfl
  have hnone : ∀ e ∈ (graph.witness 1 roots).spots, e.value = again.value → e.cut ≠ none := by
    decide +kernel
  exact hnone e he hvalue hopen

end ToolGate.Graph
