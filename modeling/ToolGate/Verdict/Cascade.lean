import ToolGate.Provenance.Graph
import ToolGate.Token.Table
import ToolGate.Verdict.Decision
import ToolGate.Verdict.Request

namespace ToolGate

structure Execution where
  id : String
  policy : Policy
  graph : Graph
  table : Table

namespace Execution

def start (id : String) (p : Policy) (t : Table) : Execution :=
  ⟨id, p, .empty ⟨p.budgets.values, p.budgets.parentsPerValue⟩, t⟩

def closure (x : Execution) (value : Number) : ClosureResult :=
  x.graph.closure x.policy.budgets.closureSteps value

end Execution

abbrev BoundRule := ArgRule × Number

namespace Cascade

def bindRules (r : Request) : List ArgRule → Except String (List BoundRule)
  | [] => .ok []
  | a :: rest =>
      match r.arguments.get? a.argument with
      | none => .error a.argument
      | some value => do
          let bound ← bindRules r rest
          return (a, value) :: bound

def checkContext (p : Policy) (rule : ToolRule) (r : Request) : Option Denial :=
  if p.strict then
    (r.context.find? rule.refusedContexts.contains).map fun i => .refusedContext rule.tool i
  else none

def counts (t : Table) (r : Request) (now : Number) (id : String) : Bool :=
  t.validate id now == .valid &&
    (t.get? id).any fun k => r.subject.all (· == k.subject)

def covered (t : Table) (r : Request) (now : Number) : List String :=
  ((r.held.filter (counts t r now)).filterMap t.get?).flatMap Token.scope

/-- The clock is read once, and only if the rule asks for authority. -/
def checkAuthority (t : Table) (rule : ToolRule) (r : Request) (now : Reading) :
    Except ClockFault (Option Denial) :=
  if rule.authority.isEmpty then .ok none
  else now.map fun now =>
    let granted := covered t r now
    let missing := rule.authority.filter (!granted.contains ·)
    if missing.isEmpty then none else some (.uncovered missing)

def checkIntegrityOf (x : Execution) : BoundRule → Option Denial
  | (a, value) =>
      match a.requires with
      | none => none
      | some required =>
          match x.closure value with
          | .error s => some (.shortfall a.argument value s)
          | .ok c =>
              if c.label.integrity.satisfies required then none
              else some (.integrity a.argument value c.label.integrity required)

def checkConfidentialityOf (x : Execution) : BoundRule → Option Denial
  | (a, value) =>
      if a.forbids.isEmpty then none
      else match x.closure value with
        | .error s => some (.shortfall a.argument value s)
        | .ok c =>
            match c.label.confidentiality.present a.forbids with
            | [] => none
            | tags => some (.forbidden a.argument value tags)

def byDefault (rule : ToolRule) : Decision :=
  match rule.defaultAction with
  | .allow => .allow
  | .requireConfirmation => .requireConfirmation
  | .requireDraft => .requireDraft
  | .deny => .deny (.byDefault rule.tool)

def conclude (x : Execution) (rule : ToolRule) (bound : List BoundRule) (uncovered : Option Denial) :
    Decision :=
  let denial := uncovered
    |>.or (bound.findSome? (checkIntegrityOf x))
    |>.or (bound.findSome? (checkConfidentialityOf x))
  match denial with
  | some d => .deny d
  | none => byDefault rule

def judgeRule (x : Execution) (rule : ToolRule) (r : Request) (now : Reading) :
    Except ClockFault Decision :=
  match bindRules r rule.argRules with
  | .error argument => .ok (.deny (.missingArgument rule.tool argument))
  | .ok bound =>
      match checkContext x.policy rule r with
      | some d => .ok (.deny d)
      | none => (checkAuthority x.table rule r now).map (conclude x rule bound)

def judge (x : Execution) (r : Request) (now : Reading) : Except ClockFault Decision :=
  match x.policy.rules.get? r.tool with
  | none => .ok (if x.policy.allowsUnlisted then .allow else .deny (.unlisted r.tool))
  | some (.malformed tool fault) => .ok (.deny (.malformed tool fault))
  | some (.rule rule) => judgeRule x rule r now

end Cascade

end ToolGate
