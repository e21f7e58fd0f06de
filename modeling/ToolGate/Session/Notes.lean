import ToolGate.Journal.Journal
import ToolGate.Verdict.Sink

namespace ToolGate

def Reason.severity : Reason → Severity
  | .budgetExceeded | .evaluationFault => .critical
  | _ => .alert

def Decision.severity : Decision → Severity
  | .allow => .info
  | .requireConfirmation | .requireDraft => .warning
  | .deny d => d.reason.severity

def sinkSeverity (passed : Bool) : Severity := if passed then .info else .alert

namespace Note

def texts (xs : List String) : Json Text.Wide := .arr (xs.map fun s : String => .str s)

def policyLoaded (p : Policy) (path : String) : Note where
  category := .policy
  action := "policy_loaded"
  severity := .info
  execution := none
  callId := none
  metadata := some
    [("policyName", .str p.name), ("path", .str path),
      ("toolCount", .num (.ofNat p.rules.length)), ("malformedTools", texts p.malformedTools)]

def decision (e : Evaluation) : Note where
  category := .decision
  action := e.record.action.name
  severity := e.decision.severity
  execution := some e.record.execution
  callId := some e.record.callId
  metadata := some <|
    ("tool", .str e.record.tool) ::
      Entry.optionalText "denyReason" (e.record.reason.map Reason.name) ++
      Entry.optionalText "message" (e.decision.denial?.map Denial.message) ++
      Entry.optionalText "sideEffectClass" (e.record.sideEffect.map SideEffect.name) ++
      Entry.optionalMember "redactionApplied" (e.record.redactionApplied.map .bool) ++
      Entry.optionalText "callPath" (e.record.callPath.map CallPath.name) ++
      [("argumentTags", .obj (e.record.argumentTags.map fun x => (x.1, texts x.2)))]

def dispatch (r : SinkRecord) : Note where
  category := .sink
  action := "pre_dispatch_" ++ dispatchName r.allowed
  severity := sinkSeverity r.allowed
  execution := some r.request.execution
  callId := some r.request.callId
  metadata := some <|
    ("callPath", .str r.request.callPath.name) ::
      Entry.optionalMember "redactionApplied" (r.request.redactionApplied.map .bool)

def transport (c : TransportCheck) : Note where
  category := .sink
  action := "transport_" ++ transportName c.passes
  severity := sinkSeverity c.passes
  execution := some c.execution
  callId := some c.callId
  metadata := some (Entry.optionalMember "redactionApplied" (c.redactionApplied.map .bool))

def authority (execution action : String) (severity : Severity) (token : String)
    (more : Named (Json Text.Wide)) : Note where
  category := .authority
  action := action
  severity := severity
  execution := some execution
  callId := none
  metadata := some (("tokenId", .str token) :: more)

def minted (execution : String) (k : Token) : Note :=
  authority execution "token_minted" .info k.id
    [("issuer", .str k.issuer), ("subject", .str k.subject), ("scope", texts k.scope)]

def delegated (execution parent : String) (k : Token) : Note :=
  authority execution "token_delegated" .info k.id
    [("parentId", .str parent), ("subject", .str k.subject), ("scope", texts k.scope)]

def refused (execution parent : String) (r : Refusal) : Note :=
  authority execution "delegation_refused" .warning parent
    [("code", .str r.code), ("errorMessage", .str (r.message parent))]

def revoked (execution id : String) (changed : Bool) : Note :=
  authority execution (if changed then "token_revoked" else "token_already_revoked") .info id []

def saved (execution : String) (count : Nat) : Note where
  category := .restore
  action := "snapshot_saved"
  severity := .info
  execution := some execution
  callId := none
  metadata := some [("tokenCount", .num (.ofNat count))]

def strippedJson (s : String × TokenStatus) : Json Text.Wide :=
  .obj [("tokenId", .str s.1), ("status", .str s.2.name)]

def restored (execution : String) (held : Revalidation) : Note where
  category := .restore
  action := "execution_restored"
  severity := if held.stripped.isEmpty then .info else .warning
  execution := some execution
  callId := none
  metadata := some
    [("effective", texts (held.effective.map Token.id)),
      ("stripped", .arr (held.stripped.map strippedJson))]

end Note

end ToolGate
