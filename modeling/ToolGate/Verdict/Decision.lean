import ToolGate.Policy.Rule
import ToolGate.Provenance.Closure

namespace ToolGate

inductive Reason where
  | untrustedControlContext
  | missingAuthority
  | integrityRequirementNotMet
  | confidentialityForbidden
  | budgetExceeded
  | malformedRule
  | unknownValue
  | defaultAction
  | toolDefaultDeny
  | evaluationFault
deriving DecidableEq

def Reason.name : Reason → String
  | .untrustedControlContext => "untrusted_control_context"
  | .missingAuthority => "missing_authority"
  | .integrityRequirementNotMet => "integrity_requirement_not_met"
  | .confidentialityForbidden => "confidentiality_forbidden"
  | .budgetExceeded => "budget_exceeded"
  | .malformedRule => "malformed_rule"
  | .unknownValue => "unknown_value"
  | .defaultAction => "default_action"
  | .toolDefaultDeny => "tool_default_deny"
  | .evaluationFault => "evaluation_fault"

def Reason.all : List Reason :=
  [.untrustedControlContext, .missingAuthority, .integrityRequirementNotMet,
    .confidentialityForbidden, .budgetExceeded, .malformedRule, .unknownValue, .defaultAction,
    .toolDefaultDeny, .evaluationFault]

inductive Denial where
  | unlisted (tool : String)
  | malformed (tool : String) (fault : RuleFault)
  | missingArgument (tool argument : String)
  | refusedContext (tool : String) (integrity : Integrity)
  | uncovered (resources : List String)
  | shortfall (argument : String) (value : Number) (s : Shortfall)
  | integrity (argument : String) (value : Number) (actual required : Integrity)
  | forbidden (argument : String) (value : Number) (tags : List String)
  | byDefault (tool : String)
  | fault (text : String)
deriving DecidableEq

namespace Denial

def reason : Denial → Reason
  | .unlisted _ => .defaultAction
  | .malformed .. | .missingArgument .. => .malformedRule
  | .refusedContext .. => .untrustedControlContext
  | .uncovered _ => .missingAuthority
  | .shortfall _ _ s => if s.isOverBudget then .budgetExceeded else .unknownValue
  | .integrity .. => .integrityRequirementNotMet
  | .forbidden .. => .confidentialityForbidden
  | .byDefault _ => .toolDefaultDeny
  | .fault _ => .evaluationFault

def listed (names : List String) : String := ", ".intercalate names

def message : Denial → String
  | .unlisted tool => "Tool '" ++ tool ++ "' is not listed and the default action is deny"
  | .malformed tool f => "Rule for '" ++ tool ++ "' is malformed: " ++ f.message
  | .missingArgument tool argument =>
      "Rule for '" ++ tool ++ "' targets argument '" ++ argument ++
        "' that the call does not carry"
  | .refusedContext tool i =>
      "Control context carries " ++ i.text ++ ", which '" ++ tool ++ "' refuses"
  | .uncovered resources => "No valid held token covers " ++ listed resources
  | .shortfall argument _ s => "Argument '" ++ argument ++ "': " ++ s.message
  | .integrity argument _ actual required =>
      "Argument '" ++ argument ++ "' has integrity " ++ actual.text ++ ", " ++ required.text ++
        " is required"
  | .forbidden argument _ tags =>
      "Argument '" ++ argument ++ "' carries forbidden tags: " ++ listed tags
  | .byDefault tool => "Rule for '" ++ tool ++ "' denies by default"
  | .fault text => "Evaluation failed: " ++ text

def argument? : Denial → Option (String × Number)
  | .shortfall argument value _ | .integrity argument value _ _ | .forbidden argument value _ =>
      some (argument, value)
  | _ => none

def missingAuthority? : Denial → Option (List String)
  | .uncovered resources => some resources
  | _ => none

end Denial

inductive Decision where
  | allow
  | requireConfirmation
  | requireDraft
  | deny (d : Denial)
deriving DecidableEq

namespace Decision

def action : Decision → Action
  | .allow => .allow
  | .requireConfirmation => .requireConfirmation
  | .requireDraft => .requireDraft
  | .deny _ => .deny

def denial? : Decision → Option Denial
  | .deny d => some d
  | _ => none

def reason? (d : Decision) : Option Reason :=
  d.denial?.map Denial.reason

end Decision

end ToolGate
