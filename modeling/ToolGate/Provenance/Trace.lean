import ToolGate.Provenance.Closure

namespace ToolGate

inductive Cut where
  | repeated
  | truncated
deriving DecidableEq

inductive Trace where
  | node (value : Node) (cut : Option Cut) (parents : List Trace)

namespace Trace

structure Row where
  depth : Nat
  value : Node
  cut : Option Cut
deriving DecidableEq

mutual

def rowsFrom (depth : Nat) : Trace → List Row → List Row
  | .node value cut parents, rest => ⟨depth, value, cut⟩ :: rowsOfAll (depth + 1) parents rest

def rowsOfAll (depth : Nat) : List Trace → List Row → List Row
  | [], rest => rest
  | t :: ts, rest => rowsFrom depth t (rowsOfAll depth ts rest)

end

def rows (t : Trace) : List Row := rowsFrom 0 t []

def isTruncated (t : Trace) : Bool :=
  t.rows.any (·.cut == some .truncated)

structure Frame where
  value : Node
  done : List Trace
  todo : List Nat

structure Walk where
  frames : List Frame
  finished : List Trace
  expanded : List Nat

namespace Walk

def attach (t : Trace) (w : Walk) : Walk :=
  match w.frames with
  | [] => { w with finished := t :: w.finished }
  | f :: fs => { w with frames := { f with done := t :: f.done } :: fs }

def visit (maxDepth : Number) (n : Node) (w : Walk) : Walk :=
  if n.id ∈ w.expanded then w.attach (.node n (some .repeated) [])
  else
    let w := { w with expanded := n.id :: w.expanded }
    if n.parents.isEmpty then w.attach (.node n none [])
    else if maxDepth.leNat w.frames.length then w.attach (.node n (some .truncated) [])
    else { w with frames := ⟨n, [], n.parents⟩ :: w.frames }

end Walk

end Trace

namespace Graph

open Trace (Walk)

def roomOf (expanded : List Nat) : List Node → Nat
  | [] => 0
  | n :: ns =>
      if n.id ∈ expanded then roomOf expanded ns
      else n.parents.length + 1 + roomOf expanded ns

def room (g : Graph) (expanded : List Nat) : Nat :=
  roomOf expanded g.nodes

theorem roomOf_cons_le (p : Nat) (expanded : List Nat) (ns : List Node) :
    roomOf (p :: expanded) ns ≤ roomOf expanded ns := by
  induction ns with
  | nil => exact Nat.le_refl _
  | cons n ns ih => grind [roomOf]

theorem room_cons {g : Graph} {expanded : List Nat} {p : Nat} {n : Node}
    (hp : p ∉ expanded) (hn : g.get? p = some n) :
    g.room (p :: expanded) + n.parents.length + 1 ≤ g.room expanded := by
  have hid : n.id = p := by simpa using List.find?_some hn
  have hm : n ∈ g.nodes := List.mem_of_find?_eq_some hn
  clear hn
  unfold room
  generalize g.nodes = ns at hm
  induction ns with
  | nil => cases hm
  | cons m ms ih =>
      have := roomOf_cons_le p expanded ms
      grind [roomOf]

def stackRoom : List Trace.Frame → Nat
  | [] => 0
  | f :: fs => f.todo.length + 1 + stackRoom fs

theorem stackRoom_attach (t : Trace) (w : Walk) :
    stackRoom (w.attach t).frames = stackRoom w.frames := by
  unfold Walk.attach
  split <;> simp_all [stackRoom]

theorem expanded_attach (t : Trace) (w : Walk) : (w.attach t).expanded = w.expanded := by
  unfold Walk.attach
  split <;> rfl

def traceWork (g : Graph) (w : Walk) : Nat :=
  g.room w.expanded + stackRoom w.frames

theorem traceWork_attach (g : Graph) (t : Trace) (w : Walk) :
    g.traceWork (w.attach t) = g.traceWork w := by
  rw [traceWork, traceWork, stackRoom_attach, expanded_attach]

theorem traceWork_visit {g : Graph} {p : Nat} {n : Node} (hn : g.get? p = some n)
    (maxDepth : Number) (w : Walk) : g.traceWork (w.visit maxDepth n) ≤ g.traceWork w := by
  have hid : n.id = p := by simpa using List.find?_some hn
  subst hid
  unfold Walk.visit
  split
  · exact Nat.le_of_eq (traceWork_attach g _ w)
  · rename_i hp
    have := room_cons hp hn
    dsimp only
    split
    · rw [traceWork_attach]; simp only [traceWork]; omega
    · split
      · rw [traceWork_attach]; simp only [traceWork]; omega
      · simp only [traceWork, stackRoom]; omega

def runTrace (g : Graph) (maxDepth : Number) (w : Walk) : Walk :=
  match _hf : w.frames with
  | [] => w
  | ⟨value, done, []⟩ :: fs =>
      g.runTrace maxDepth (Walk.attach (.node value none done.reverse) { w with frames := fs })
  | ⟨value, done, p :: ps⟩ :: fs =>
      match _hn : g.get? p with
      | none => g.runTrace maxDepth { w with frames := ⟨value, done, ps⟩ :: fs }
      | some n =>
          g.runTrace maxDepth (Walk.visit maxDepth n { w with frames := ⟨value, done, ps⟩ :: fs })
termination_by g.traceWork w
decreasing_by
  · rw [traceWork_attach]
    simp only [traceWork, stackRoom, _hf]
    omega
  · simp only [traceWork, stackRoom, _hf, List.length_cons]
    omega
  · refine Nat.lt_of_le_of_lt (traceWork_visit _hn maxDepth _) ?_
    simp only [traceWork, stackRoom, _hf, List.length_cons]
    omega

def trace (g : Graph) (maxDepth : Number) (n : Node) (expanded : List Nat) :
    Trace × List Nat :=
  let w := g.runTrace maxDepth (Walk.visit maxDepth n ⟨[], [], expanded⟩)
  (w.finished.headD (.node n none []), w.expanded)

end Graph

end ToolGate
