import ToolGate.Proofs.Provenance.Closures
import ToolGate.Proofs.Provenance.Invariant
import ToolGate.Proofs.Provenance.Memo

namespace ToolGate

namespace Graph

variable {g : Graph} {limit value : Number} {n : Node} {c : Call}

theorem Reached.resolve?_call (hg : g.Reached) (hc : c ≠ .reset) (hn : g.resolve? value = some n) :
    (g.call c).2.resolve? value = some n := by
  obtain ⟨i, hi, hget⟩ := Option.bind_eq_some_iff.1 hn
  rw [Graph.resolve?, hi, Option.bind_some, hg.get?_call hc hget]

theorem Reached.sharesAbove_call (hg : g.Reached) (hc : c ≠ .reset) (hn : g.get? n.id = some n) :
    g.SharesAbove (g.call c).2 n.id := by
  intro a ha
  have hstored := hg.layered.stored_ancestor (has_of_get? hn) ha
  obtain ⟨m, hm⟩ := Option.isSome_iff_exists.1 hstored
  rw [hm, hg.get?_call hc hm]

theorem Reached.closure_call (hg : g.Reached) (hc : c ≠ .reset) (hn : g.resolve? value = some n) :
    (g.call c).2.closure limit value = g.closure limit value := by
  have hstays := hg.resolve?_call hc hn
  refine closure_congr ⟨by rw [hstays, hn], ?_⟩
  intro m hm
  cases hn.symm.trans hm
  exact hg.sharesAbove_call hc (resolve?_some hn)

theorem Reached.eq_of_key_eq (hg : g.Reached) (hn : g.resolve? value = some n) {other : Number}
    (h : other.key = value.key) : other = value := by
  obtain ⟨i, hi, hget⟩ := Option.bind_eq_some_iff.1 hn
  obtain ⟨hmem, rfl⟩ := get?_some hget
  exact Number.eq_of_key_eq hi (hg.within.positive n hmem) h

end Graph

structure Inquiry where
  engine : ClosureEngine
  graph : Graph

namespace Inquiry

inductive Move where
  | ask (value : Number)
  | create (seals : Seals) (v : Proposal)
  | record (seals : Seals) (id : Number) (v : Proposal)

def opened (limit : Number) (g : Graph) : Inquiry := ⟨.new limit, g⟩

def step (s : Inquiry) : Move → Inquiry
  | .ask value => ⟨(s.engine.ask s.graph value).2, s.graph⟩
  | .create seals v => ⟨s.engine, (s.graph.call (.create seals v)).2⟩
  | .record seals id v => ⟨s.engine, (s.graph.call (.record seals id v)).2⟩

def run (s : Inquiry) (moves : List Move) : Inquiry :=
  moves.foldl step s

variable {s : Inquiry} {limit value : Number} {n : Node} {m : Move} {moves : List Move}
  {answer : ClosureResult}

theorem step_cases (s : Inquiry) (m : Move) :
    (∃ value, m = .ask value ∧ s.step m = ⟨(s.engine.ask s.graph value).2, s.graph⟩) ∨
      ∃ c, c ≠ .reset ∧ s.step m = ⟨s.engine, (s.graph.call c).2⟩ := by
  cases m with
  | ask value => exact .inl ⟨value, rfl, rfl⟩
  | create seals v => exact .inr ⟨.create seals v, nofun, rfl⟩
  | record seals id v => exact .inr ⟨.record seals id v, nofun, rfl⟩

theorem reached_run (hs : s.graph.Reached) (moves : List Move) : (s.run moves).graph.Reached := by
  induction moves generalizing s with
  | nil => exact hs
  | cons m moves ih =>
      refine ih ?_
      rcases step_cases s m with ⟨value, -, hstep⟩ | ⟨c, -, hstep⟩
      · rw [hstep]
        exact hs
      · rw [hstep]
        exact (hs.call c).1

structure Remembers (s : Inquiry) (limit value : Number) (answer : ClosureResult) : Prop where
  reached : s.graph.Reached
  stored : ∃ n, s.graph.resolve? value = some n
  answered : s.engine.memo.lookup value.key = some answer
  current : s.graph.closure limit value = answer

theorem lookup_ask_of_ne {e : ClosureEngine} {g : Graph} {other : Number}
    (h : other.key ≠ value.key) :
    (e.ask g other).2.memo.lookup value.key = e.memo.lookup value.key := by
  have hne : (value.key == other.key) = false := beq_eq_false_iff_ne.2 h.symm
  unfold ClosureEngine.ask
  cases e.memo.lookup other.key with
  | some r => rfl
  | none => simp only [List.lookup_cons, hne]

theorem lookup_ask {e : ClosureEngine} {g : Graph} {other : Number}
    (h : e.memo.lookup value.key = some answer) :
    (e.ask g other).2.memo.lookup value.key = some answer := by
  by_cases hkey : other.key = value.key
  · rw [ClosureEngine.ask, hkey, h]
    exact h
  · rw [lookup_ask_of_ne hkey]
    exact h

theorem limit_ask {e : ClosureEngine} {g : Graph} {other : Number} :
    (e.ask g other).2.limit = e.limit := by
  unfold ClosureEngine.ask
  cases e.memo.lookup other.key with
  | some r => rfl
  | none => rfl

theorem Remembers.step (h : s.Remembers limit value answer) (m : Move) :
    (s.step m).Remembers limit value answer := by
  obtain ⟨n, hn⟩ := h.stored
  rcases step_cases s m with ⟨other, -, hstep⟩ | ⟨c, hc, hstep⟩
  · rw [hstep]
    exact ⟨h.reached, h.stored, lookup_ask h.answered, h.current⟩
  · rw [hstep]
    have hcurrent := (h.reached.closure_call hc hn).trans h.current
    exact ⟨(h.reached.call c).1, ⟨n, h.reached.resolve?_call hc hn⟩, h.answered, hcurrent⟩

theorem Remembers.run (h : s.Remembers limit value answer) (moves : List Move) :
    (s.run moves).Remembers limit value answer := by
  induction moves generalizing s with
  | nil => exact h
  | cons m moves ih => exact ih (h.step m)

theorem Remembers.ask (h : s.Remembers limit value answer) :
    (s.engine.ask s.graph value).1 = answer := by
  rw [ClosureEngine.ask, h.answered]

structure Unasked (s : Inquiry) (limit value : Number) : Prop where
  limited : s.engine.limit = limit
  unanswered : s.engine.memo.lookup value.key = none

theorem Unasked.step (h : s.Unasked limit value)
    (hm : ∀ other, m = .ask other → other.key ≠ value.key) : (s.step m).Unasked limit value := by
  rcases step_cases s m with ⟨other, rfl, hstep⟩ | ⟨c, -, hstep⟩
  · rw [hstep]
    exact ⟨limit_ask.trans h.limited, (lookup_ask_of_ne (hm other rfl)).trans h.unanswered⟩
  · rw [hstep]
    exact ⟨h.limited, h.unanswered⟩

theorem Unasked.run (h : s.Unasked limit value)
    (hmoves : ∀ other, .ask other ∈ moves → other.key ≠ value.key) :
    (s.run moves).Unasked limit value := by
  induction moves generalizing s with
  | nil => exact h
  | cons m moves ih =>
      refine ih (h.step ?_) ?_
      · rintro other rfl
        exact hmoves other List.mem_cons_self
      · intro other hother
        exact hmoves other (List.mem_cons_of_mem _ hother)

theorem Unasked.ask (h : s.Unasked limit value) :
    (s.engine.ask s.graph value).1 = s.graph.closure limit value := by
  rw [ClosureEngine.ask, h.unanswered, ← h.limited]

theorem Unasked.remembers (h : s.Unasked limit value) (hs : s.graph.Reached)
    (hn : s.graph.resolve? value = some n) :
    (s.step (.ask value)).Remembers limit value (s.graph.closure limit value) := by
  refine ⟨hs, ⟨n, hn⟩, ?_, rfl⟩
  simp only [Inquiry.step, ClosureEngine.ask, h.unanswered, h.limited]
  exact List.lookup_cons_self

theorem answer_stands {g : Graph} {before : List Move} (hg : g.Reached)
    (hfirst : .ask value ∉ before)
    (hn : ((opened limit g).run before).graph.resolve? value = some n) (after : List Move) :
    let first := (opened limit g).run before
    let s := (opened limit g).run (before ++ .ask value :: after)
    let fresh := ((ClosureEngine.new limit).ask s.graph value).1
    s.engine.memo.lookup value.key = some fresh ∧ (s.engine.ask s.graph value).1 = fresh ∧
      (first.engine.ask first.graph value).1 = fresh := by
  have hreached := reached_run (s := opened limit g) hg before
  have hopened : (opened limit g).Unasked limit value := ⟨rfl, rfl⟩
  have hother : ∀ other, .ask other ∈ before → other.key ≠ value.key := by
    rintro other hasked hkey
    cases hreached.eq_of_key_eq hn hkey
    exact hfirst hasked
  have hunasked := hopened.run hother
  have hremembers := (hunasked.remembers hreached hn).run after
  have hrun : (opened limit g).run (before ++ .ask value :: after) =
      (((opened limit g).run before).step (.ask value)).run after := List.foldl_append
  rw [← hrun] at hremembers
  simp only [Graph.ask_new, hremembers.answered, hremembers.ask, hremembers.current, hunasked.ask,
    and_self]

namespace Line

open Graph.Crowded (literal)

def start : Graph := .empty ⟨10, 4⟩

def early : List Move := [.create [] (literal []), .create [] (literal [1])]

def third : Move := .create [] (literal [2])

def late : List Move :=
  [.create [] (literal [3, 1]), .record [] 9 (literal [7]), .record [] 9 (literal [4]), .ask 9]

def grown : Inquiry :=
  (opened 2 start).run (early ++ .ask 2 :: third :: .ask 3 :: late)

end Line

open Line in
theorem answer_stands_of_line :
    grown.graph.size = 5 ∧
      (grown.engine.ask grown.graph 2).1 = .ok ⟨⟨.trusted, .ofTags [] false⟩, 2⟩ ∧
      ((ClosureEngine.new 2).ask grown.graph 2).1 = .ok ⟨⟨.trusted, .ofTags [] false⟩, 2⟩ ∧
      (grown.engine.ask grown.graph 3).1 = .error (.overBudget 3 2) ∧
      ((ClosureEngine.new 2).ask grown.graph 3).1 = .error (.overBudget 3 2) := by
  have hreached : start.Reached := .empty _
  have hne : (3 : Number) ≠ 2 := by decide +kernel
  have hsecond : ((opened 2 start).run early).graph.resolve? 2 =
      some ⟨2, .plain .trusted, .ofTags [] false, [1], literalKind⟩ := by decide +kernel
  have hthird : ((opened 2 start).run (early ++ [.ask 2, third])).graph.resolve? 3 =
      some ⟨3, .plain .trusted, .ofTags [] false, [2], literalKind⟩ := by decide +kernel
  obtain ⟨-, hwhole, hwholeFirst⟩ :=
    answer_stands hreached (by simp [early]) hsecond (third :: .ask 3 :: late)
  obtain ⟨-, hover, hoverFirst⟩ :=
    answer_stands hreached (by simp [early, third, hne]) hthird late
  refine ⟨by decide +kernel, ?_, ?_, ?_, ?_⟩
  · exact hwhole.trans (hwholeFirst.symm.trans (by decide +kernel))
  · exact hwholeFirst.symm.trans (by decide +kernel)
  · exact hover.trans (hoverFirst.symm.trans (by decide +kernel))
  · exact hoverFirst.symm.trans (by decide +kernel)

end Inquiry

end ToolGate
