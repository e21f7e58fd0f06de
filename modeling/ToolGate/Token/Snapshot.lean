import ToolGate.Json.Parser
import ToolGate.Json.Printer
import ToolGate.Json.Shape
import ToolGate.Token.Table

namespace ToolGate

inductive SnapshotFault where
  | notJson
  | shape (issue : Json.Issue)
  | repeatedToken (id : String)
  | malformedScope (id : String)
  | malformedWindow (id : String)
  | missingParent (id parent : String)
  | notNarrower (id parent : String)
deriving DecidableEq

namespace SnapshotFault

def message : SnapshotFault → String
  | .notJson => "Snapshot is not valid JSON: malformed text"
  | .shape issue => "Snapshot does not match schema: " ++ issue.message
  | .repeatedToken id => "Duplicate token " ++ id ++ " in snapshot"
  | .malformedScope id => "Token " ++ id ++ " has a malformed scope"
  | .malformedWindow id => "Token " ++ id ++ " has an empty validity window"
  | .missingParent id parent =>
      "Token " ++ id ++ " references parent " ++ parent ++ " that does not precede it"
  | .notNarrower id parent => "Token " ++ id ++ " is not narrower than its parent " ++ parent

def token? : SnapshotFault → Option String
  | .notJson | .shape _ => none
  | .repeatedToken id | .malformedScope id | .malformedWindow id | .missingParent id _
  | .notNarrower id _ => some id

end SnapshotFault

namespace Snapshot

open Json (Shape Checked)

def orNull {α : Type} (json : α → Json) : Option α → Json
  | none => .null
  | some a => json a

def windowJson (w : Window) : Json :=
  .obj [("notBefore", .num w.notBefore), ("expiresAt", orNull .num w.expiresAt)]

def tokenJson (k : Token) : Json :=
  .obj
    [("id", .str k.id), ("issuer", .str k.issuer), ("subject", .str k.subject),
      ("scope", .arr (k.scope.map .str)), ("validity", windowJson k.window),
      ("parentId", orNull .str k.parent), ("revoked", .bool k.revoked)]

def json (ks : List Token) : Json :=
  .obj [("version", .num 1), ("tokens", .arr (ks.map tokenJson))]

def write (t : Table) : String := (json t.toList).text

def windowShape : Shape Window := fun v => do
  let ms ← Shape.object v
  let notBefore ← Shape.member "notBefore" Shape.nonNegative ms
  let expiresAt ← Shape.member "expiresAt" (Shape.nullable Shape.nonNegative) ms
  Shape.only ["notBefore", "expiresAt"] ms
  return ⟨notBefore, expiresAt⟩

def tokenShape : Shape Token := fun v => do
  let ms ← Shape.object v
  let id ← Shape.member "id" Shape.filled ms
  let issuer ← Shape.member "issuer" Shape.filled ms
  let subject ← Shape.member "subject" Shape.filled ms
  let scope ← Shape.member "scope" (Shape.filledList Shape.filled) ms
  let window ← Shape.member "validity" windowShape ms
  let parent ← Shape.member "parentId" (Shape.nullable Shape.filled) ms
  let revoked ← Shape.member "revoked" Shape.boolean ms
  Shape.only ["id", "issuer", "subject", "scope", "validity", "parentId", "revoked"] ms
  return ⟨id, issuer, subject, scope, window, parent, revoked⟩

def tokensShape : Shape (List Token) := fun v => do
  let ms ← Shape.object v
  Shape.member "version" Shape.one ms
  let tokens ← Shape.member "tokens" (Shape.list tokenShape) ms
  Shape.only ["version", "tokens"] ms
  return tokens

def check (t : Table) (k : Token) : Except SnapshotFault Unit := do
  if t.has k.id then throw (.repeatedToken k.id)
  if !(Scope.isWellFormed k.scope && k.scope == Scope.normalize k.scope) then
    throw (.malformedScope k.id)
  if !k.window.isWellFormed then throw (.malformedWindow k.id)
  match k.parent with
  | none => return ()
  | some p =>
      match t.get? p with
      | none => throw (.missingParent k.id p)
      | some parent =>
          if !(Scope.isNarrower k.scope parent.scope && parent.window.isNarrower k.window) then
            throw (.notNarrower k.id p)

def build (t : Table) : List Token → Except SnapshotFault Table
  | [] => .ok t
  | k :: ks => do
      check t k
      build (t.add k) ks

def read (s : String) : Except SnapshotFault Table :=
  match Json.parse? s with
  | none => .error .notJson
  | some v =>
      match tokensShape (some v) with
      | .error issue => .error (.shape issue)
      | .ok ks => build .empty ks

end Snapshot

end ToolGate
