import ToolGate.Verdict.Evaluation

namespace ToolGate

structure SinkRequest where
  execution : String
  callId : String
  callPath : CallPath
  redactionApplied : Option Bool

structure TransportCheck where
  execution : String
  callId : String
  redactionApplied : Option Bool
deriving DecidableEq

structure SinkRecord where
  request : SinkRequest
  allowed : Bool

namespace SinkRequest

def allowed (r : SinkRequest) : Bool := r.redactionApplied.getD false

def record (r : SinkRequest) : SinkRecord := ⟨r, r.allowed⟩

def transportCheck? (r : SinkRequest) : Option TransportCheck :=
  r.redactionApplied.map fun applied => ⟨r.execution, r.callId, some applied⟩

end SinkRequest

def TransportCheck.passes (c : TransportCheck) : Bool := c.redactionApplied.getD false

def Record.transportCheck? (r : Record) : Option TransportCheck :=
  r.redactionApplied.map fun applied => ⟨r.execution, r.callId, some applied⟩

def dispatchName (allowed : Bool) : String := if allowed then "allow" else "deny"

def transportName (passed : Bool) : String := if passed then "passed" else "blocked"

end ToolGate
