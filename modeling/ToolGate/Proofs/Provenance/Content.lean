import ToolGate.Proofs.Label.Content
import ToolGate.Proofs.Provenance.Agreement

namespace ToolGate

/-- A value without the seal of its mark and without the order of its tags. -/
def Node.content (n : Node) : Node :=
  ⟨n.id, .plain n.mark.integrity, n.confidentiality.content, n.parents, n.kind⟩

theorem Node.label_content (n : Node) : n.content.label = n.label.content := rfl

theorem Node.parents_content (n : Node) : n.content.parents = n.parents := rfl

def Closure.content (c : Closure) : Closure := ⟨c.label.content, c.steps⟩

theorem Closure.alike_cases {r r' : ClosureResult}
    (h : r.map Closure.content = r'.map Closure.content) :
    (∃ s, r = .error s ∧ r' = .error s) ∨
      ∃ c c', r = .ok c ∧ r' = .ok c' ∧ c.label.Alike c'.label := by
  cases r with
  | error s =>
      cases r' with
      | error s' => exact .inl ⟨s, rfl, by cases h; rfl⟩
      | ok c' => cases h
  | ok c =>
      cases r' with
      | error s' => cases h
      | ok c' =>
          have hlabel := (Closure.mk.inj (Except.ok.inj h)).1
          exact .inr ⟨c, c', rfl, rfl, Label.content_eq_iff.1 hlabel⟩

def Frontier.content (f : Frontier) : Frontier := ⟨f.queue.map Node.content, f.met⟩

def Root.content (r : Root) : Root := ⟨r.argument, r.value, r.closure.map Closure.content⟩

theorem Root.label_content (r : Root) : r.content.label = r.label.content := by
  obtain ⟨argument, value, closure⟩ := r
  cases closure <;> rfl

namespace Trace

mutual

def content : Trace → Trace
  | .node value cut parents => .node value.content cut (contentOfAll parents)

def contentOfAll : List Trace → List Trace
  | [] => []
  | t :: ts => t.content :: contentOfAll ts

end

end Trace

def WitnessArgument.content (a : WitnessArgument) : WitnessArgument :=
  ⟨a.argument, a.value, a.exhibit.map fun e => ⟨e.closure.content, e.trace.content⟩⟩

def Witness.content (w : Witness) : Witness :=
  ⟨w.arguments.map WitnessArgument.content, w.maxDepth⟩

namespace Graph

variable {g h : Graph} {maxDepth limit value : Number}

def content (g : Graph) : Graph := ⟨g.budgets, g.nodes.map Node.content⟩

theorem get?_content (g : Graph) (id : Nat) :
    g.content.get? id = (g.get? id).map Node.content := by
  rw [get?, get?, content, List.find?_map]
  rfl

theorem resolve?_content (g : Graph) (ref : Number) :
    g.content.resolve? ref = (g.resolve? ref).map Node.content := by
  rw [Graph.resolve?, Graph.resolve?, Option.map_bind]
  exact congrArg _ (funext g.get?_content)

theorem meet_content (g : Graph) (ps : List Nat) (f : Frontier) :
    g.content.meet ps f.content = (g.meet ps f).map Frontier.content := by
  induction ps generalizing f with
  | nil => rfl
  | cons p ps ih =>
      simp only [meet, get?_content]
      by_cases hp : p ∈ f.met
      · rw [if_pos hp, ← ih, if_pos (by exact hp)]
      · rw [if_neg hp, if_neg (by exact hp)]
        cases g.get? p with
        | none => rfl
        | some n =>
            simp only [Option.map_some, ← ih]
            simp only [Frontier.content, List.map_append, List.map_singleton]

theorem walk_content {c d : Closure} (hc : c.content = d.content) (f : Frontier) :
    (g.content.walk limit value c f.content).map Closure.content =
      (g.walk limit value d f).map Closure.content := by
  induction hwork : g.work f using Nat.strongRecOn generalizing c d f with
  | ind work ih =>
      subst hwork
      obtain ⟨hlabel, hsteps⟩ := Closure.mk.inj hc
      obtain ⟨queue, met⟩ := f
      cases queue with
      | nil =>
          rw [walk, walk]
          exact congrArg Except.ok hc
      | cons n rest =>
          rw [Frontier.content, List.map_cons, walk_cons, walk_cons, hsteps, Node.parents_content]
          have hmeet := g.meet_content n.parents ⟨rest, met⟩
          rw [Frontier.content] at hmeet
          rw [hmeet]
          split
          · rfl
          · cases hm : g.meet n.parents ⟨rest, met⟩ with
            | error p => rfl
            | ok f =>
                have hless : g.work f < g.work ⟨n :: rest, met⟩ := by
                  have := work_meet hm
                  simp only [work, List.length_cons] at *
                  omega
                -- the two labels differ in form, and so may their joins, but not in content
                have hjoin : (⟨c.label.join n.content.label, d.steps + 1⟩ : Closure).content =
                    (⟨d.label.join n.label, d.steps + 1⟩ : Closure).content := by
                  simp only [Closure.content, Node.label_content,
                    Label.join_content_congr hlabel n.label]
                exact ih _ hless hjoin f rfl

theorem closure_content (g : Graph) (limit value : Number) :
    (g.content.closure limit value).map Closure.content =
      (g.closure limit value).map Closure.content := by
  rw [closure, closure, resolve?_content]
  cases g.resolve? value with
  | none => rfl
  | some n =>
      have hlabel : (⟨n.content.label, 0⟩ : Closure).content = (⟨n.label, 0⟩ : Closure).content :=
        congrArg (Closure.mk · 0) (Label.content_content n.label)
      exact walk_content hlabel ⟨[n], [n.id]⟩

theorem Unfolds.content {depth : Nat} {expanded ids after : List Nat} {ts : List Trace}
    (hg : g.Unfolds maxDepth depth expanded ids ts after) :
    g.content.Unfolds maxDepth depth expanded ids (Trace.contentOfAll ts) after := by
  induction hg with
  | nil => exact .nil
  | missing hp _ ih => exact .missing (by rw [get?_content, hp]; rfl) ih
  | shut hn hcut _ ih => exact .shut (by rw [get?_content, hn]; rfl) hcut ih
  | opened hn hopen _ _ ihParents ih =>
      exact .opened (by rw [get?_content, hn]; rfl) hopen ihParents ih

theorem trace_content {n : Node} (hn : g.get? n.id = some n) (expanded : List Nat) :
    g.content.trace maxDepth n.content expanded =
      ((g.trace maxDepth n expanded).1.content, (g.trace maxDepth n expanded).2) := by
  have hn' : g.content.get? n.content.id = some n.content := by
    rw [get?_content, Node.content, hn]
    rfl
  obtain ⟨htrace, hafter⟩ := (trace_unfolds maxDepth hn expanded).content.unique
    (trace_unfolds maxDepth hn' expanded)
  exact Prod.ext (List.cons.inj htrace).1 hafter

theorem exhibits_content (g : Graph) (roots : List Root) (expanded : List Nat) :
    g.content.exhibits maxDepth (roots.map Root.content) expanded =
      (g.exhibits maxDepth roots expanded).map WitnessArgument.content := by
  induction roots generalizing expanded with
  | nil => rfl
  | cons r rs ih =>
      rw [List.map_cons, exhibits, exhibits, Root.label_content]
      simp only [Root.content, resolve?_content]
      cases hn : g.resolve? r.value with
      | none => simp only [Option.map_none, ih, List.map_cons, WitnessArgument.content]
      | some n =>
          simp only [Option.map_some, trace_content (resolve?_some hn), ih, List.map_cons,
            WitnessArgument.content]

theorem isParent_content {a b : Nat} : g.content.IsParent a b ↔ g.IsParent a b := by
  simp [IsParent, get?_content, Node.parents_content]

theorem ancestor_content {root a : Nat} : g.content.Ancestor root a ↔ g.Ancestor root a := by
  have hparent : g.content.IsParent = g.IsParent := by
    funext a b
    exact propext isParent_content
  rw [Ancestor, Ancestor, hparent]

theorem AgreesOn.content (hg : g.AgreesOn h value) : g.content.AgreesOn h.content value := by
  constructor
  · simpa only [resolve?_content, Option.map_eq_none_iff] using hg.unknown
  · intro n hn a ha
    rw [resolve?_content] at hn
    obtain ⟨m, hm, rfl⟩ := Option.map_eq_some_iff.1 hn
    rw [get?_content, get?_content, hg.shared m hm a (ancestor_content.1 ha)]

theorem closure_alike (hg : g.content.AgreesOn h.content value) :
    (h.closure limit value).map Closure.content = (g.closure limit value).map Closure.content := by
  rw [← closure_content h, ← closure_content g, closure_congr hg]

theorem witness_alike {roots roots' : List Root}
    (hroots : roots'.map Root.content = roots.map Root.content)
    (hg : ∀ r ∈ roots, g.content.AgreesOn h.content r.value) :
    (h.witness maxDepth roots').content = (g.witness maxDepth roots).content := by
  have hg' : ∀ r ∈ roots.map Root.content, g.content.AgreesOn h.content r.value :=
    List.forall_mem_map.2 hg
  simp only [witness, Witness.content, ← exhibits_content, hroots, exhibits_congr hg']

end Graph

end ToolGate
