import ToolGate.Token.Basic

namespace ToolGate

/-- The newest token stands first, each parent behind its children. -/
structure Table where
  tokens : List Token
deriving DecidableEq

structure Revalidation where
  effective : List Token
  stripped : List (String × TokenStatus)

namespace Table

def empty : Table := ⟨[]⟩

def toList (t : Table) : List Token := t.tokens.reverse

def get? (t : Table) (id : String) : Option Token :=
  t.tokens.find? (·.id == id)

def has (t : Table) (id : String) : Bool :=
  (t.get? id).isSome

def add (t : Table) (k : Token) : Table := ⟨k :: t.tokens⟩

def chain (id : String) : List Token → List Token
  | [] => []
  | k :: older =>
      if k.id = id then
        match k.parent with
        | none => [k]
        | some p => k :: chain p older
      else chain id older

def lineage (t : Table) (id : String) : List String :=
  (chain id t.tokens).map Token.id

def isRooted (ks : List Token) : Bool :=
  ks.getLast?.any (·.parent.isNone)

def validate (t : Table) (id : String) (instant : Number) : TokenStatus :=
  match chain id t.tokens with
  | [] => .unknown
  | k :: ks =>
      if (k :: ks).any Token.revoked then .revoked
      else if isRooted (k :: ks) then (k.window.status instant).tokenStatus
      else .unknown

def checkNewId (t : Table) (id : String) : Except TokenFault Unit :=
  if Text.allBlank id then .error .blankId
  else if t.has id then .error (.repeatedId id)
  else .ok ()

def checkParties (id issuer subject : String) : Except TokenFault Unit :=
  if Text.allBlank issuer || Text.allBlank subject then .error (.blankParty id) else .ok ()

def mintAs (t : Table) (clock : Clock) (id : String) (r : MintRequest) :
    Except TokenFault (Token × Table) := do
  t.checkNewId id
  checkParties id r.issuer r.subject
  let scope := Scope.normalize r.scope
  if !Scope.isWellFormed scope then throw (.malformedScope id)
  let window ← r.window.resolve (clock 0)
  if !window.isWellFormed then throw (.malformedWindow id)
  let k := ⟨id, r.issuer, r.subject, scope, window, none, false⟩
  return (k, t.add k)

def mint (t : Table) (clock : Clock) (ids : IdSource) (r : MintRequest) :
    Except TokenFault (Token × Table) × IdSource :=
  let (id, ids) := ids.take r.id
  (t.mintAs clock id r, ids)

def grant (t : Table) (clock : Clock) (parent : String) (r : DelegationRequest) :
    Except TokenFault (Except Refusal (Token × List String × Window)) := do
  match t.get? parent with
  | none => return .error .unknownParent
  | some k =>
      match clock 0 with
      | .error f => throw (.clock f)
      | .ok now =>
          match t.validate parent now with
          | .revoked => return .error .parentRevoked
          | .valid =>
              let scope := Scope.normalize r.scope
              if !Scope.isNarrower scope k.scope then return .error .scopeNotNarrowed
              let window ← r.window.resolve (clock 1)
              if !(window.isWellFormed && k.window.isNarrower window) then
                return .error .lifetimeNotNarrowed
              return .ok (k, scope, window)
          | _ => return .error (.parentExpired now)

def delegateAs (t : Table) (id : String) (parent : Token) (scope : List String) (window : Window)
    (r : DelegationRequest) : Except TokenFault (Token × Table) := do
  t.checkNewId id
  let subject := r.subject.getD parent.subject
  let issuer := r.issuer.getD parent.issuer
  checkParties id issuer subject
  let k := ⟨id, issuer, subject, scope, window, some parent.id, false⟩
  return (k, t.add k)

def delegate (t : Table) (clock : Clock) (ids : IdSource) (parent : String)
    (r : DelegationRequest) :
    Except TokenFault (Except Refusal (Token × Table)) × IdSource :=
  match t.grant clock parent r with
  | .error f => (.error f, ids)
  | .ok (.error refusal) => (.ok (.error refusal), ids)
  | .ok (.ok (k, scope, window)) =>
      let (id, ids) := ids.take r.id
      ((t.delegateAs id k scope window r).map .ok, ids)

def revoke (t : Table) (id : String) : Except TokenFault (Bool × Table) :=
  match t.get? id with
  | none => .error (.unknownToken id)
  | some k =>
      if k.revoked then .ok (false, t)
      else .ok (true, ⟨t.tokens.map fun k => if k.id = id then { k with revoked := true } else k⟩)

def revalidate (t : Table) (held : List String) (instant : Number) : Revalidation :=
  let held := held.eraseDups
  let valid := fun id => t.validate id instant == .valid
  ⟨(held.filter valid).filterMap t.get?,
    (held.filter (!valid ·)).map fun id => (id, t.validate id instant)⟩

end Table

end ToolGate
