import ToolGate.Label.Seal
import ToolGate.Number.Decimal

namespace ToolGate

structure Node where
  id : Nat
  mark : Mark
  confidentiality : Confidentiality
  parents : List Nat
  kind : String
deriving DecidableEq

def Node.label (n : Node) : Label :=
  ⟨n.mark.integrity, n.confidentiality⟩

structure GraphBudgets where
  values : Number
  parentsPerValue : Number
deriving DecidableEq

/-- The newest value stands first. -/
structure Graph where
  budgets : GraphBudgets
  nodes : List Node
deriving DecidableEq

structure Proposal where
  mark : Mark
  confidentiality : Confidentiality
  parents : List Number
  kind : String

def literalKind : String := "literal"

inductive GraphFault where
  | notMonotonic (id : Number) (last : Nat)
  | full (id : Nat) (limit : Number)
  | tooManyParents (id count : Nat) (limit : Number)
  | unknownParent (id : Nat) (parent : Number)
  | repeatedParent (id : Nat) (parent : Number)
  | unsealed (id : Nat)
deriving DecidableEq

namespace GraphFault

def message : GraphFault → String
  | .notMonotonic id last =>
      "Value ID " ++ id.text ++ " must be an integer greater than " ++ toString last
  | .full _ limit => "Value budget of " ++ limit.text ++ " exhausted"
  | .tooManyParents id count limit =>
      "Value " ++ toString id ++ " lists " ++ toString count ++ " parents, limit is " ++ limit.text
  | .unknownParent id parent => "Value " ++ toString id ++ " lists unknown parent " ++ parent.text
  | .repeatedParent id parent =>
      "Value " ++ toString id ++ " lists parent " ++ parent.text ++ " twice"
  | .unsealed id =>
      "Value " ++ toString id ++ " carries a verified label that no registered verifier minted"

def code : GraphFault → String
  | .notMonotonic .. => "non_monotonic_id"
  | .full .. => "value_budget_exceeded"
  | .tooManyParents .. => "parent_budget_exceeded"
  | .unknownParent .. => "unknown_parent"
  | .repeatedParent .. => "duplicate_parent"
  | .unsealed _ => "forged_verified_label"

def value : GraphFault → Number
  | .notMonotonic id _ => id
  | .full id _ | .tooManyParents id _ _ | .unknownParent id _ | .repeatedParent id _
  | .unsealed id => .ofNat id

end GraphFault

namespace Graph

def empty (budgets : GraphBudgets) : Graph := ⟨budgets, []⟩

def size (g : Graph) : Nat := g.nodes.length

def last (g : Graph) : Nat := (g.nodes.head?.map Node.id).getD 0

def get? (g : Graph) (id : Nat) : Option Node :=
  g.nodes.find? (·.id == id)

def has (g : Graph) (id : Nat) : Bool :=
  (g.get? id).isSome

def resolve? (g : Graph) (ref : Number) : Option Node :=
  ref.natural?.bind g.get?

def newId (g : Graph) (id : Number) : Except GraphFault Nat :=
  match id.natural? with
  | some n =>
      if id.isSafeInteger ∧ g.last < n then .ok n else .error (.notMonotonic id g.last)
  | none => .error (.notMonotonic id g.last)

def newParents (g : Graph) (id : Nat) : List Number → List Nat → Except GraphFault (List Nat)
  | [], seen => .ok seen.reverse
  | ref :: refs, seen =>
      match g.resolve? ref with
      | none => .error (.unknownParent id ref)
      | some p =>
          if p.id ∈ seen then .error (.repeatedParent id ref)
          else newParents g id refs (p.id :: seen)

def insert (g : Graph) (seals : Seals) (id : Number) (v : Proposal) :
    Except GraphFault (Node × Graph) := do
  let id ← g.newId id
  if g.budgets.values.leNat g.size then throw (.full id g.budgets.values)
  if g.budgets.parentsPerValue.ltNat v.parents.length then
    throw (.tooManyParents id v.parents.length g.budgets.parentsPerValue)
  let parents ← g.newParents id v.parents []
  if !v.mark.admissible seals then throw (.unsealed id)
  let node := ⟨id, v.mark, v.confidentiality, parents, v.kind⟩
  return (node, { g with nodes := node :: g.nodes })

def create (g : Graph) (seals : Seals) (v : Proposal) : Except GraphFault (Node × Graph) :=
  g.insert seals (.ofNat (g.last + 1)) v

def reset (g : Graph) : Graph := { g with nodes := [] }

def createChain (g : Graph) (seals : Seals) (v : Proposal) (before : Option Node) :
    Nat → Except GraphFault (Option Node) × Graph
  | 0 => (.ok before, g)
  | count + 1 =>
      match g.create seals v with
      | .error fault => (.error fault, g)
      | .ok (node, g) =>
          createChain g seals { v with parents := [.ofNat node.id] } (some node) count

end Graph

end ToolGate
