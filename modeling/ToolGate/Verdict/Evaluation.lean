import ToolGate.Provenance.Witness
import ToolGate.Verdict.Cascade

namespace ToolGate

structure Record where
  execution : String
  callId : String
  tool : String
  action : Action
  reason : Option Reason
  sideEffect : Option SideEffect
  redactionApplied : Option Bool
  callPath : Option CallPath
  argumentTags : Named (List String)

structure Evaluation where
  decision : Decision
  witness : Option Witness
  record : Record

/-- Why a call is left without a decision: the denial asks for the text of what the clock has thrown,
and there is none. -/
inductive EvaluationFault where
  | noText
deriving DecidableEq

def EvaluationFault.message : EvaluationFault → String
  | .noText => "Value has no text"

namespace Execution

def tagNames : ClosureResult → List String
  | .ok c => c.label.confidentiality.names
  | .error _ => Confidentiality.all.names

def explained (r : Request) : Decision → Named Number
  | .allow => []
  | .requireConfirmation | .requireDraft => r.ordered
  | .deny d =>
      match d with
      | .unlisted _ | .byDefault _ => r.ordered
      | _ => d.argument?.toList

def witness (x : Execution) (r : Request) (d : Decision) : Option Witness :=
  match d with
  | .allow => none
  | d =>
      let roots := (explained r d).map fun (argument, value) => ⟨argument, value, x.closure value⟩
      some (x.graph.witness x.policy.budgets.witnessDepth roots)

def argumentTags (x : Execution) (r : Request) (d : Decision) : Named (List String) :=
  let tags := fun value =>
    match d with
    | .deny (.fault _) => Confidentiality.all.names
    | _ => tagNames (x.closure value)
  (r.ordered.filter (·.1 != Json.baseName)).map fun (argument, value) => (argument, tags value)

def sideEffect? (x : Execution) (tool : String) : Option SideEffect :=
  match x.policy.rules.get? tool with
  | some (.rule rule) => some rule.sideEffect
  | _ => none

def record (x : Execution) (r : Request) (d : Decision) : Record where
  execution := x.id
  callId := r.callId
  tool := r.tool
  action := d.action
  reason := d.reason?
  sideEffect := x.sideEffect? r.tool
  redactionApplied :=
    match x.sideEffect? r.tool with
    | some .externalWrite => some (r.redactionApplied.getD false)
    | _ => none
  callPath := r.callPath
  argumentTags := x.argumentTags r d

def report (x : Execution) (r : Request) (d : Decision) : Evaluation :=
  ⟨d, x.witness r d, x.record r d⟩

def decision (x : Execution) (r : Request) (now : Reading) : Except EvaluationFault Decision :=
  match Cascade.judge x r now with
  | .ok d => .ok d
  | .error f =>
      match f.text? with
      | some text => .ok (.deny (.fault text))
      | none => .error .noText

def evaluate (x : Execution) (r : Request) (now : Reading) : Except EvaluationFault Evaluation :=
  (x.decision r now).map (x.report r)

end Execution

end ToolGate
