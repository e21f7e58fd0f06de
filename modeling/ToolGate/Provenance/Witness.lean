import ToolGate.Provenance.Trace

namespace ToolGate

structure Root where
  argument : String
  value : Number
  closure : ClosureResult

structure Exhibit where
  closure : Label
  trace : Trace

structure WitnessArgument where
  argument : String
  value : Number
  exhibit : Option Exhibit

structure Witness where
  arguments : List WitnessArgument
  maxDepth : Number

namespace Witness

def empty (maxDepth : Number) : Witness := ⟨[], maxDepth⟩

def isTruncated (w : Witness) : Bool :=
  w.arguments.any fun a => a.exhibit.any fun e => e.trace.isTruncated

end Witness

def Root.label (r : Root) : Label :=
  match r.closure with
  | .ok c => c.label
  | .error _ => .worst

namespace Graph

def exhibits (g : Graph) (maxDepth : Number) : List Root → List Nat → List WitnessArgument
  | [], _ => []
  | r :: rs, expanded =>
      match g.resolve? r.value with
      | none => ⟨r.argument, r.value, none⟩ :: g.exhibits maxDepth rs expanded
      | some n =>
          let (trace, expanded) := g.trace maxDepth n expanded
          ⟨r.argument, r.value, some ⟨r.label, trace⟩⟩ :: g.exhibits maxDepth rs expanded

def witness (g : Graph) (maxDepth : Number) (roots : List Root) : Witness :=
  ⟨g.exhibits maxDepth roots [], maxDepth⟩

end Graph

end ToolGate
