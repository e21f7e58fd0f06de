import ToolGate.Label.Integrity
import ToolGate.Named
import ToolGate.Number.Basic

namespace ToolGate

inductive CallPath where
  | planner
  | quarantined
deriving DecidableEq

def CallPath.name : CallPath → String
  | .planner => "planner"
  | .quarantined => "quarantined"

structure Request where
  callId : String
  tool : String
  arguments : Named Number
  /-- The integrity of the decisions that led to the call. -/
  context : List Integrity
  held : List String
  subject : Option String
  redactionApplied : Option Bool
  callPath : Option CallPath

def Request.ordered (r : Request) : Named Number :=
  indexFirst r.arguments

end ToolGate
