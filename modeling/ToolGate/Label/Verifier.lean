import ToolGate.Named
import ToolGate.Label.Seal

namespace ToolGate

abbrev Verifier (Candidate : Type) := Candidate → Except String Bool

abbrev Registry (Candidate : Type) := Named (Verifier Candidate)

inductive RegistryFault where
  | invalidTag (tag : String)
  | repeatedTag (tag : String)
deriving DecidableEq

def RegistryFault.message : RegistryFault → String
  | .invalidTag tag => "Invalid verifier tag '" ++ tag ++ "'"
  | .repeatedTag tag => "Verifier for '" ++ tag ++ "' is already registered"

namespace Registry

variable {Candidate : Type}

def register (tag : String) (v : Verifier Candidate) (r : Registry Candidate) :
    Except RegistryFault (Registry Candidate) :=
  if Text.allBlank tag || tag.toList.any Integrity.isParenthesis then .error (.invalidTag tag)
  else if Named.has tag r then .error (.repeatedTag tag)
  else .ok (Named.put tag v r)

def verify (tag : String) (candidate : Candidate) (r : Registry Candidate) (seals : Seals) :
    Except String (Option Seal × Seals) :=
  match Named.get? tag r with
  | none => .ok (none, seals)
  | some v =>
      match v candidate with
      | .error message => .error message
      | .ok false => .ok (none, seals)
      | .ok true =>
          let (s, seals) := seals.issue tag
          .ok (some s, seals)

end Registry

end ToolGate
