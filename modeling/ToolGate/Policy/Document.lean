import ToolGate.Json.Parser
import ToolGate.Policy.Compile

namespace ToolGate

open Json (Shape Checked)

inductive PolicyFault where
  | notJson
  | unsupportedVersion (version : Number)
  | shape (issue : Json.Issue)
  | unnamedTool (index : Nat)
deriving DecidableEq

namespace PolicyFault

def message : PolicyFault → String
  | .notJson => "Policy is not valid JSON: malformed text"
  | .unsupportedVersion version =>
      "Unsupported policy schema_version " ++ version.text ++ "; only 1 is accepted"
  | .shape issue => "Invalid policy document: " ++ issue.located
  | .unnamedTool index => "Tool entry " ++ toString index ++ " has no tool name"

def code : PolicyFault → String
  | .notJson => "invalid_json"
  | .unsupportedVersion _ => "unsupported_schema_version"
  | .shape _ => "invalid_document"
  | .unnamedTool _ => "unnamed_tool_rule"

def place? : PolicyFault → Option String
  | .notJson => none
  | .unsupportedVersion _ => some "schema_version"
  | .shape issue => some issue.place
  | .unnamedTool index => some ("tools." ++ toString index)

end PolicyFault

structure PolicyDocument where
  name : String
  allowsUnlisted : Bool
  strict : Bool
  budgets : PolicyBudgets
  tools : List Json

namespace PolicyDocument

def budgetsShape : Shape PolicyBudgets := fun v => do
  let ms ← Shape.object v
  let values ← Shape.member "max_values" Shape.positive ms
  let parents ← Shape.member "max_parents_per_value" Shape.positive ms
  let steps ← Shape.member "max_closure_steps" Shape.positive ms
  let depth ← Shape.member "max_witness_depth" Shape.positive ms
  Shape.only ["max_values", "max_parents_per_value", "max_closure_steps", "max_witness_depth"] ms
  return ⟨values, parents, steps, depth⟩

def shape : Shape PolicyDocument := fun v => do
  let ms ← Shape.object v
  Shape.member "schema_version" Shape.one ms
  let name ← Shape.member "policy_name" Shape.filled ms
  let allows ← Shape.member "default_action" (Shape.choice [("Allow", true), ("Deny", false)]) ms
  let strict ← Shape.member "strict_mode" Shape.boolean ms
  let budgets ← Shape.member "budgets" budgetsShape ms
  let tools ← Shape.member "tools" Shape.array ms
  Shape.only
    ["schema_version", "policy_name", "default_action", "strict_mode", "budgets", "tools"] ms
  return ⟨name, allows, strict, budgets, tools⟩

def foreignVersion? (v : Json) : Option Number :=
  match v.member? "schema_version" with
  | some (.num x) => if x = 1 then none else some x
  | _ => none

def toolName? (v : Json) : Option String :=
  match (v.member? "tool").bind Json.text? with
  | some "" => none
  | name => name

def nameTools (index : Nat) : List Json → Except PolicyFault (List (String × Json))
  | [] => .ok []
  | v :: vs =>
      match toolName? v with
      | none => .error (.unnamedTool index)
      | some name => do
          let rest ← nameTools (index + 1) vs
          return (name, v) :: rest

structure Listing where
  rules : Named RuleEntry
  repeated : List String

namespace Listing

def add (l : Listing) (tool : String × Json) : Listing :=
  if l.rules.has tool.1 then { l with repeated := l.repeated ++ [tool.1] }
  else { l with rules := l.rules.put tool.1 (.ofJson tool.1 tool.2) }

def close (l : Listing) : Named RuleEntry :=
  l.repeated.foldl (fun rules name => rules.put name (.malformed name .repeatedTool)) l.rules

end Listing

def compileTools (tools : List (String × Json)) : Named RuleEntry :=
  (tools.foldl Listing.add ⟨[], []⟩).close

def compile (d : PolicyDocument) : Except PolicyFault Policy := do
  let tools ← nameTools 0 d.tools
  return ⟨d.name, d.allowsUnlisted, d.strict, d.budgets, compileTools tools⟩

end PolicyDocument

namespace Policy

def ofJson (v : Json) : Except PolicyFault Policy :=
  match PolicyDocument.foreignVersion? v with
  | some version => .error (.unsupportedVersion version)
  | none =>
      match PolicyDocument.shape (some v) with
      | .error issue => .error (.shape issue)
      | .ok d => d.compile

def parse (s : String) : Except PolicyFault Policy :=
  match Json.parse? s with
  | none => .error .notJson
  | some v => ofJson v

end Policy

end ToolGate
