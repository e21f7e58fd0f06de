import ToolGate.Provenance.Graph

namespace ToolGate

structure Closure where
  label : Label
  steps : Nat
deriving DecidableEq

inductive Shortfall where
  | unknownValue (value : Number)
  | overBudget (value : Number) (limit : Number)
  | missingAncestor (ancestor : Nat) (value : Number)
deriving DecidableEq

namespace Shortfall

def isOverBudget : Shortfall → Bool
  | .overBudget .. => true
  | _ => false

def code (s : Shortfall) : String :=
  if s.isOverBudget then "budget_exceeded" else "unknown_value"

def value : Shortfall → Number
  | .unknownValue value | .overBudget value _ => value
  | .missingAncestor ancestor _ => .ofNat ancestor

def message : Shortfall → String
  | .unknownValue value => "Value " ++ value.text ++ " does not exist"
  | .overBudget value limit =>
      "Closure of value " ++ value.text ++ " needs more than " ++ limit.text ++ " steps"
  | .missingAncestor ancestor value =>
      "Ancestor " ++ toString ancestor ++ " of value " ++ value.text ++ " does not exist"

end Shortfall

abbrev ClosureResult := Except Shortfall Closure

structure Frontier where
  queue : List Node
  met : List Nat

namespace Graph

def unmet (g : Graph) (met : List Nat) : Nat :=
  g.nodes.countP (fun n => !met.contains n.id)

theorem unmet_lt {g : Graph} {met : List Nat} {p : Nat} {n : Node}
    (hp : p ∉ met) (hn : g.get? p = some n) : g.unmet (p :: met) < g.unmet met := by
  have hid : n.id = p := by simpa using List.find?_some hn
  have hm : n ∈ g.nodes := List.mem_of_find?_eq_some hn
  clear hn
  unfold unmet
  generalize g.nodes = ns at hm
  induction ns with
  | nil => cases hm
  | cons m ms ih =>
      have hle : ms.countP (fun n => !(p :: met).contains n.id) ≤
          ms.countP (fun n => !met.contains n.id) :=
        List.countP_mono_left (by grind)
      grind

def work (g : Graph) (f : Frontier) : Nat :=
  2 * g.unmet f.met + f.queue.length

def meet (g : Graph) : List Nat → Frontier → Except Nat Frontier
  | [], f => .ok f
  | p :: ps, f =>
      if p ∈ f.met then meet g ps f
      else match g.get? p with
        | none => .error p
        | some n => meet g ps ⟨f.queue ++ [n], p :: f.met⟩

theorem work_meet {g : Graph} {ps : List Nat} {f f' : Frontier} (h : g.meet ps f = .ok f') :
    g.work f' ≤ g.work f := by
  induction ps generalizing f with
  | nil => cases h; exact Nat.le_refl _
  | cons p ps ih =>
      rw [meet] at h
      split at h
      · exact ih h
      · split at h
        · cases h
        · rename_i hp _ n hn
          have := ih h
          have := unmet_lt hp hn
          simp only [work, List.length_append, List.length_singleton] at *
          omega

def walk (g : Graph) (limit value : Number) (c : Closure) (f : Frontier) : ClosureResult :=
  match _hq : f.queue with
  | [] => .ok c
  | n :: rest =>
      if limit.leNat c.steps then .error (.overBudget value limit)
      else match h : g.meet n.parents ⟨rest, f.met⟩ with
        | .error p => .error (.missingAncestor p value)
        | .ok f' => g.walk limit value ⟨c.label.join n.label, c.steps + 1⟩ f'
termination_by g.work f
decreasing_by
  have := work_meet h
  simp only [work, _hq, List.length_cons] at *
  omega

def closure (g : Graph) (limit value : Number) : ClosureResult :=
  match g.resolve? value with
  | none => .error (.unknownValue value)
  | some n => g.walk limit value ⟨n.label, 0⟩ ⟨[n], [n.id]⟩

end Graph

structure ClosureEngine where
  limit : Number
  memo : List (Number × ClosureResult)

namespace ClosureEngine

def new (limit : Number) : ClosureEngine := ⟨limit, []⟩

def ask (e : ClosureEngine) (g : Graph) (value : Number) : ClosureResult × ClosureEngine :=
  match e.memo.lookup value.key with
  | some r => (r, e)
  | none =>
      let r := g.closure e.limit value
      (r, { e with memo := (value.key, r) :: e.memo })

end ClosureEngine

end ToolGate
