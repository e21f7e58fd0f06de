import ToolGate.Token.Table

namespace ToolGate

structure TokenStore where
  table : Table
  readings : Clock
  names : Nat → Except String String

def Table.put (t : Table) (k : Token) : Table :=
  if t.has k.id then ⟨t.tokens.map fun l => if l.id = k.id then k else l⟩ else t.add k

deriving instance DecidableEq for Revalidation

namespace TokenStore

inductive Fault where
  | token (f : TokenFault)
  | name (message : String)
deriving DecidableEq

abbrev Op := EStateM Fault TokenStore

def lift {α : Type} : Except TokenFault α → Op α
  | .ok a => return a
  | .error f => throw (.token f)

def passed (s : TokenStore) : TokenStore := { s with readings := fun n => s.readings (n + 1) }

def now : Op Number := do
  let s ← get
  set s.passed
  match s.readings 0 with
  | .ok instant => return instant
  | .error f => throw (.token (.clock f))

def draw : Op String := do
  let s ← get
  set { s with names := fun n => s.names (n + 1) }
  match s.names 0 with
  | .ok id => return id
  | .error message => throw (.name message)

def take : Option String → Op String
  | some id => return id
  | none => draw

def put (k : Token) : Op Unit :=
  modify fun s => { s with table := s.table.put k }

def resolve (w : WindowRequest) : Op Window := do
  match w.notBefore with
  | some start => return ⟨start, w.expiresAt⟩
  | none =>
      let start ← now
      return ⟨start, w.expiresAt⟩

def mintAs (id : String) (r : MintRequest) : Op Token := do
  let s ← get
  lift (s.table.checkNewId id)
  lift (Table.checkParties id r.issuer r.subject)
  let scope := Scope.normalize r.scope
  if !Scope.isWellFormed scope then throw (.token (.malformedScope id))
  let window ← resolve r.window
  if !window.isWellFormed then throw (.token (.malformedWindow id))
  let k := ⟨id, r.issuer, r.subject, scope, window, none, false⟩
  put k
  return k

def mint (r : MintRequest) : Op Token := do
  let id ← take r.id
  mintAs id r

def grant (parent : String) (r : DelegationRequest) :
    Op (Except Refusal (Token × List String × Window)) := do
  let s ← get
  match s.table.get? parent with
  | none => return .error .unknownParent
  | some k =>
      let instant ← now
      match s.table.validate parent instant with
      | .revoked => return .error .parentRevoked
      | .valid =>
          let scope := Scope.normalize r.scope
          if !Scope.isNarrower scope k.scope then return .error .scopeNotNarrowed
          let window ← resolve r.window
          if !(window.isWellFormed && k.window.isNarrower window) then
            return .error .lifetimeNotNarrowed
          return .ok (k, scope, window)
      | _ => return .error (.parentExpired instant)

def delegateAs (id : String) (parent : Token) (scope : List String) (window : Window)
    (r : DelegationRequest) : Op Token := do
  let s ← get
  lift (s.table.checkNewId id)
  let subject := r.subject.getD parent.subject
  let issuer := r.issuer.getD parent.issuer
  lift (Table.checkParties id issuer subject)
  let k := ⟨id, issuer, subject, scope, window, some parent.id, false⟩
  put k
  return k

def delegate (parent : String) (r : DelegationRequest) : Op (Except Refusal Token) := do
  match ← grant parent r with
  | .error refusal => return .error refusal
  | .ok (k, scope, window) =>
      let id ← take r.id
      let k ← delegateAs id k scope window r
      return .ok k

def revoke (id : String) : Op Bool := do
  let s ← get
  match s.table.get? id with
  | none => throw (.token (.unknownToken id))
  | some k =>
      if k.revoked then return false
      put { k with revoked := true }
      return true

def revalidate (held : List String) (at? : Option Number) : Op Revalidation := do
  let instant ← match at? with
    | some instant => pure instant
    | none => now
  let s ← get
  return s.table.revalidate held instant

inductive Call where
  | mint (r : MintRequest)
  | delegate (parent : String) (r : DelegationRequest)
  | revoke (id : String)
  | revalidate (held : List String) (at? : Option Number)

inductive Answer where
  | added (k : Token)
  | refused (r : Refusal)
  | revoked (changed : Bool)
  | checked (r : Revalidation)
deriving DecidableEq

def Answer.ofDelegation : Except Refusal Token → Answer
  | .ok k => .added k
  | .error refusal => .refused refusal

def perform : Call → Op Answer
  | .mint r => return .added (← mint r)
  | .delegate parent r => return .ofDelegation (← delegate parent r)
  | .revoke id => return .revoked (← revoke id)
  | .revalidate held at? => return .checked (← revalidate held at?)

def call (s : TokenStore) (c : Call) : Except Fault Answer × TokenStore :=
  match (perform c).run s with
  | .ok a u => (.ok a, u)
  | .error e u => (.error e, u)

def run (s : TokenStore) (calls : List Call) : TokenStore :=
  calls.foldl (fun s c => (s.call c).2) s

end TokenStore

end ToolGate
