import ToolGate.Token.Clock
import ToolGate.Token.Scope
import ToolGate.Token.Window

namespace ToolGate

structure Token where
  id : String
  issuer : String
  subject : String
  scope : List String
  window : Window
  parent : Option String
  revoked : Bool
deriving DecidableEq

inductive TokenStatus where
  | valid
  | revoked
  | expired
  | notYetValid
  | unknown
deriving DecidableEq

def WindowStatus.tokenStatus : WindowStatus → TokenStatus
  | .valid => .valid
  | .expired => .expired
  | .notYetValid => .notYetValid

namespace TokenStatus

def name : TokenStatus → String
  | .valid => "valid"
  | .revoked => "revoked"
  | .expired => "expired"
  | .notYetValid => "not_yet_valid"
  | .unknown => "unknown"

end TokenStatus

structure WindowRequest where
  notBefore : Option Number
  expiresAt : Option Number

structure MintRequest where
  id : Option String
  issuer : String
  subject : String
  scope : List String
  window : WindowRequest

structure DelegationRequest where
  id : Option String
  scope : List String
  window : WindowRequest
  subject : Option String
  issuer : Option String

inductive TokenFault where
  | blankId
  | repeatedId (id : String)
  | blankParty (id : String)
  | malformedScope (id : String)
  | malformedWindow (id : String)
  | unknownToken (id : String)
  | clock (f : ClockFault)
deriving DecidableEq

namespace TokenFault

def message? : TokenFault → Option String
  | .blankId => some "Token ID must not be blank"
  | .repeatedId id => some ("Token " ++ id ++ " already exists")
  | .blankParty _ => some "Issuer and subject must not be blank"
  | .malformedScope _ => some "Scope must list at least one non-blank resource"
  | .malformedWindow _ => some "Validity window is empty or invalid"
  | .unknownToken id => some ("Token " ++ id ++ " does not exist")
  | .clock f => f.text?

def code : TokenFault → String
  | .repeatedId _ => "duplicate_token"
  | .unknownToken _ => "unknown_token"
  | _ => "malformed_request"

def token? : TokenFault → Option String
  | .blankId | .clock _ => none
  | .repeatedId id | .blankParty id | .malformedScope id | .malformedWindow id
  | .unknownToken id => some id

end TokenFault

def WindowRequest.resolve (w : WindowRequest) (now : Reading) : Except TokenFault Window :=
  match w.notBefore with
  | some start => .ok ⟨start, w.expiresAt⟩
  | none =>
      match now with
      | .ok start => .ok ⟨start, w.expiresAt⟩
      | .error f => .error (.clock f)

inductive Refusal where
  | unknownParent
  | parentRevoked
  | parentExpired (now : Number)
  | scopeNotNarrowed
  | lifetimeNotNarrowed
deriving DecidableEq

namespace Refusal

def code : Refusal → String
  | .unknownParent => "unknown_parent"
  | .parentRevoked => "parent_revoked"
  | .parentExpired _ => "parent_expired"
  | .scopeNotNarrowed => "scope_not_narrowed"
  | .lifetimeNotNarrowed => "lifetime_not_narrowed"

def message (parent : String) : Refusal → String
  | .unknownParent => "Parent token " ++ parent ++ " does not exist"
  | .parentRevoked => "Parent token " ++ parent ++ " is revoked"
  | .parentExpired now =>
      "Parent token " ++ parent ++ " is outside its validity window at " ++ now.text
  | .scopeNotNarrowed => "Delegated scope must be a strict, non-empty subset of the parent scope"
  | .lifetimeNotNarrowed =>
      "Delegated validity window must end strictly before the parent window and start within it"

end Refusal

structure IdSource where
  name : Nat → String
  drawn : Nat

def IdSource.draw (s : IdSource) : String × IdSource :=
  (s.name (s.drawn + 1), { s with drawn := s.drawn + 1 })

def IdSource.take (s : IdSource) : Option String → String × IdSource
  | some id => (id, s)
  | none => s.draw

end ToolGate
