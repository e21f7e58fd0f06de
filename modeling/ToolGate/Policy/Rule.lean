import ToolGate.Json.Shape
import ToolGate.Label.Integrity

namespace ToolGate

inductive SideEffect where
  | externalRead
  | externalWrite
deriving DecidableEq

def SideEffect.name : SideEffect → String
  | .externalRead => "external_read"
  | .externalWrite => "external_write"

inductive Action where
  | allow
  | deny
  | requireConfirmation
  | requireDraft
deriving DecidableEq

def Action.name : Action → String
  | .allow => "allow"
  | .deny => "deny"
  | .requireConfirmation => "require_confirmation"
  | .requireDraft => "require_draft"

structure ArgRule where
  argument : String
  requires : Option Integrity
  forbids : List String
deriving DecidableEq

structure ToolRule where
  tool : String
  sideEffect : SideEffect
  authority : List String
  argRules : List ArgRule
  refusedContexts : List Integrity
  defaultAction : Action
deriving DecidableEq

inductive RuleFault where
  | shape (issue : Json.Issue)
  | blankResource
  | repeatedArgument (argument : String)
  | unknownIntegrity (argument text : String)
  | unknownContext (text : String)
  | repeatedTool
deriving DecidableEq

def RuleFault.message : RuleFault → String
  | .shape issue => issue.located
  | .blankResource => "required_authority lists a blank resource"
  | .repeatedArgument argument => "Argument '" ++ argument ++ "' has more than one rule"
  | .unknownIntegrity argument text =>
      "Argument '" ++ argument ++ "' requires unknown integrity '" ++ text ++ "'"
  | .unknownContext text => "Context rule names unknown integrity '" ++ text ++ "'"
  | .repeatedTool => "Tool is listed more than once"

inductive RuleEntry where
  | rule (r : ToolRule)
  | malformed (tool : String) (fault : RuleFault)
deriving DecidableEq

structure PolicyBudgets where
  values : Number
  parentsPerValue : Number
  closureSteps : Number
  witnessDepth : Number
deriving DecidableEq

structure Policy where
  name : String
  allowsUnlisted : Bool
  strict : Bool
  budgets : PolicyBudgets
  rules : Named RuleEntry
deriving DecidableEq

namespace RuleEntry

def isMalformed : RuleEntry → Bool
  | .malformed .. => true
  | .rule _ => false

def tool : RuleEntry → String
  | .rule r => r.tool
  | .malformed tool _ => tool

end RuleEntry

def Policy.malformedTools (p : Policy) : List String :=
  p.rules.filterMap fun e => if e.2.isMalformed then some e.2.tool else none

end ToolGate
