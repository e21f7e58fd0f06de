import ToolGate.Label.Basic

namespace ToolGate

structure Seal where
  serial : Nat
  tag : String
deriving DecidableEq

/-- The tags of all seals issued so far; a seal's serial is its place. -/
abbrev Seals := List String

namespace Seals

def issue (tag : String) (seals : Seals) : Seal × Seals :=
  (⟨seals.length, tag⟩, seals ++ [tag])

def holds (seals : Seals) (s : Seal) : Bool :=
  seals[s.serial]? == some s.tag

end Seals

/-- An integrity as the host presents it: written down, or under a seal. -/
inductive Mark where
  | plain (i : Integrity)
  | sealed (s : Seal)
deriving DecidableEq

namespace Mark

def integrity : Mark → Integrity
  | .plain i => i
  | .sealed s => .verified s.tag

def isSealed (seals : Seals) : Mark → Bool
  | .plain _ => false
  | .sealed s => seals.holds s

def admissible (seals : Seals) : Mark → Bool
  | .plain (.verified _) => false
  | .plain _ => true
  | .sealed s => seals.holds s

end Mark

end ToolGate
