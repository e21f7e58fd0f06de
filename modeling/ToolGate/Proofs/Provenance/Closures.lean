import ToolGate.Proofs.Provenance.Ancestry

namespace ToolGate.Graph

variable {g : Graph} {limit value : Number} {budget : Int} {n : Node} {c : Closure}

structure IsClosure (c : Closure) (s : Finset Node) : Prop where
  steps : c.steps = s.card
  agreed : ∀ i, (∀ n ∈ s, n.label.integrity = i) → c.label.integrity = i
  mixed : (¬∃ i, ∀ n ∈ s, n.label.integrity = i) → c.label.integrity = .untrusted
  universal : c.label.confidentiality.universal ↔ ∃ n ∈ s, n.confidentiality.universal
  tags : ¬c.label.confidentiality.universal →
    ∀ tag, tag ∈ c.label.confidentiality.tags ↔ ∃ n ∈ s, tag ∈ n.confidentiality.tags

theorem universal_joinAll {ns : List Node} (hn : n ∈ ns) :
    (n.label.joinAll (ns.map Node.label)).confidentiality.universal ↔
      ∃ m ∈ ns.toFinset, m.confidentiality.universal := by
  simp only [Label.universal_joinAll, List.mem_map, exists_exists_and_eq_and, List.mem_toFinset]
  exact or_iff_right_of_imp fun h => ⟨n, hn, h⟩

theorem Sums.integrity_eq {s : Finset Node} {l : Label} (h : Sums n s l) (hn : n ∈ s)
    {i : Integrity} (hall : ∀ m ∈ s, m.label.integrity = i) : l.integrity = i := by
  rw [h.integrity, if_pos fun m hm => (hall m hm).trans (hall n hn).symm]
  exact hall n hn

theorem Sums.integrity_mixed {s : Finset Node} {l : Label} (h : Sums n s l)
    (hmixed : ¬∃ i, ∀ m ∈ s, m.label.integrity = i) : l.integrity = .untrusted := by
  rw [h.integrity, if_neg fun hall => hmixed ⟨_, hall⟩]

theorem Sums.mem_tags {s : Finset Node} {l : Label} (h : Sums n s l)
    (huniversal : l.confidentiality.universal ↔ ∃ m ∈ s, m.confidentiality.universal)
    (hnot : ¬l.confidentiality.universal) (tag : String) :
    tag ∈ l.confidentiality.tags ↔ ∃ m ∈ s, tag ∈ m.confidentiality.tags := by
  have hcarried := h.carries tag
  simp only [Confidentiality.carries_iff, hnot, Bool.false_eq_true, false_or] at hcarried
  rw [hcarried]
  refine exists_congr fun m => and_congr_right fun hm => or_iff_right ?_
  exact fun hall => hnot (huniversal.2 ⟨m, hm, hall⟩)

theorem Layered.isClosure (hg : Layered g.nodes) (hn : g.resolve? value = some n)
    (hc : g.closure limit value = .ok c) : IsClosure c (g.ancestry n.id) := by
  have hsums := hg.closure_sums hn hc
  obtain ⟨ns, hroot, hdistinct, hset, rfl⟩ := hg.closure_ok hn hc
  have huniversal := universal_joinAll hroot
  rw [hset] at huniversal
  refine ⟨?_, fun i => hsums.integrity_eq ?_, hsums.integrity_mixed, huniversal,
    hsums.mem_tags huniversal⟩
  · rw [← hset, List.toFinset_card_of_nodup hdistinct]
  · rw [← hset, List.mem_toFinset]
    exact hroot

theorem ask_new (g : Graph) (limit value : Number) :
    ((ClosureEngine.new limit).ask g value).1 = g.closure limit value := rfl

theorem Layered.closure_iff (hg : Layered g.nodes) (hb : limit.integer? = some budget)
    (hn : g.resolve? value = some n) :
    ((∃ c, g.closure limit value = .ok c) ↔ (g.ancestry n.id).card ≤ budget) ∧
      (budget < (g.ancestry n.id).card →
        g.closure limit value = .error (.overBudget value limit)) := by
  have hless : limit.ltNat (g.ancestry n.id).card ↔ budget < (g.ancestry n.id).card :=
    Number.ltNat_iff_int hb
  rcases hg.closure_eq (Number.isInteger_of_integer? hb) hn with ⟨hover, hc⟩ | ⟨hpaid, l, hc, -⟩
  · have hover := hless.1 hover
    rw [hc]
    exact ⟨⟨nofun, fun hle => absurd hover (Int.not_lt.2 hle)⟩, fun _ => rfl⟩
  · have hpaid := mt hless.2 hpaid
    rw [hc]
    exact ⟨⟨fun _ => Int.not_lt.1 hpaid, fun _ => ⟨_, rfl⟩⟩, fun hover => absurd hover hpaid⟩

theorem ask_correct (hg : g.Reached) (hb : limit.integer? = some budget) (value : Number) :
    let answer := ((ClosureEngine.new limit).ask g value).1
    ((∃ s, answer = .error s ∧ s.code = "unknown_value") ↔ g.resolve? value = none) ∧
    ∀ n, g.resolve? value = some n →
      ((∃ c, answer = .ok c) ↔ (g.ancestry n.id).card ≤ budget) ∧
      (∀ c, answer = .ok c → IsClosure c (g.ancestry n.id)) ∧
      (budget < (g.ancestry n.id).card →
        ∃ s, answer = .error s ∧ s.code = "budget_exceeded" ∧ s.value = value) := by
  simp only [ask_new]
  refine ⟨⟨?_, fun hn => ⟨_, closure_unknown hn, rfl⟩⟩, fun n hn => ?_⟩
  · rintro ⟨s, hs, hcode⟩
    cases hn : g.resolve? value with
    | none => rfl
    | some n =>
        rcases hg.layered.closure_eq (Number.isInteger_of_integer? hb) hn with ⟨-, hc⟩ | ⟨-, l, hc, -⟩
        · cases hs.symm.trans hc
          exact absurd hcode (ne_of_beq_false rfl)
        · cases hs.symm.trans hc
  · obtain ⟨hiff, hshort⟩ := hg.layered.closure_iff hb hn
    exact ⟨hiff, fun c hc => hg.layered.isClosure hn hc, fun hover => ⟨_, hshort hover, rfl, rfl⟩⟩

namespace Diamond

def source : Node := ⟨1, .plain .trusted, .ofTags ["hr"] false, [], literalKind⟩

def left : Node := ⟨2, .plain .trusted, .ofTags ["web"] false, [1], "extract"⟩

def right : Node := ⟨3, .plain .untrusted, .ofTags [] false, [1], "extract"⟩

def bottom : Node := ⟨4, .plain .trusted, .ofTags ["hr"] false, [2, 3], "merge"⟩

def graph : Graph := ⟨⟨10, 4⟩, [bottom, right, left, source]⟩

theorem reached : graph.Reached :=
  (((Reached.empty ⟨10, 4⟩ |>.add source (by decide +kernel)).add left (by decide +kernel)).add right
    (by decide +kernel)).add bottom (by decide +kernel)

end Diamond

open Diamond in
theorem ask_correct_diamond :
    (∃ c, ((ClosureEngine.new 4).ask graph 4).1 = .ok c ∧ c.steps = 4 ∧
      IsClosure c (graph.ancestry 4)) ∧
    (∃ s, ((ClosureEngine.new 3).ask graph 4).1 = .error s ∧ s.code = "budget_exceeded" ∧
      s.value = 4) ∧
    ∃ s, ((ClosureEngine.new 4).ask graph 5).1 = .error s ∧ s.code = "unknown_value" := by
  have hfour : Number.integer? 4 = some 4 := by decide +kernel
  have hthree : Number.integer? 3 = some 3 := by decide +kernel
  have hbottom : graph.resolve? 4 = some bottom := by decide +kernel
  have hnone : graph.resolve? 5 = none := by decide +kernel
  have hanswer : ((ClosureEngine.new 4).ask graph 4).1 =
      .ok ⟨⟨.untrusted, .ofTags ["hr", "web"] false⟩, 4⟩ := by decide +kernel
  obtain ⟨-, hclosure, -⟩ := (ask_correct reached hfour 4).2 bottom hbottom
  have hall := hclosure _ hanswer
  have hcard : (graph.ancestry 4).card = 4 := hall.steps.symm
  obtain ⟨-, -, hover⟩ := (ask_correct reached hthree 4).2 bottom hbottom
  refine ⟨⟨_, hanswer, rfl, hall⟩, hover ?_, (ask_correct reached hfour 5).1.2 hnone⟩
  exact Int.ofNat_lt.2 (hcard.symm ▸ Nat.lt_succ_self 3)

end ToolGate.Graph
