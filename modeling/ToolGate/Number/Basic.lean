namespace ToolGate

def unitsPerOne : Nat := 1 <<< 1074

def topExponent : Nat := 1074 + 1024

def unitsLimit : Nat := 1 <<< topExponent

def significandLimit : Nat := 1 <<< 53

def Fits (units : Nat) : Prop :=
  units < unitsLimit ∧ ∃ m e, m ≤ significandLimit ∧ units = m <<< e

theorem fits_zero : Fits 0 := by
  refine ⟨?_, 0, 0, Nat.zero_le _, rfl⟩
  rw [unitsLimit, Nat.one_shiftLeft]
  exact Nat.two_pow_pos topExponent

inductive Number where
  | nan
  | infinite (negative : Bool)
  | finite (negative : Bool) (units : Nat) (fits : Fits units)
deriving DecidableEq

namespace Number

def zero : Number := .finite false 0 fits_zero

instance : Inhabited Number := ⟨zero⟩

def signedUnits (negative : Bool) (units : Nat) : Int :=
  if negative then -(units : Int) else units

def lt : Number → Number → Bool
  | .nan, _ | _, .nan => false
  | .infinite a, .infinite b => a && !b
  | .infinite a, .finite .. => a
  | .finite .., .infinite b => !b
  | .finite a m _, .finite b n _ => signedUnits a m < signedUnits b n

def le : Number → Number → Bool
  | .nan, _ | _, .nan => false
  | .infinite a, .infinite b => a || !b
  | .infinite a, .finite .. => a
  | .finite .., .infinite b => !b
  | .finite a m _, .finite b n _ => signedUnits a m ≤ signedUnits b n

instance : LT Number := ⟨fun a b => a.lt b = true⟩
instance : LE Number := ⟨fun a b => a.le b = true⟩

instance (a b : Number) : Decidable (a < b) := inferInstanceAs (Decidable (a.lt b = true))
instance (a b : Number) : Decidable (a ≤ b) := inferInstanceAs (Decidable (a.le b = true))

def leNat : Number → Nat → Bool
  | .nan, _ => false
  | .infinite a, _ => a
  | .finite a m _, n => signedUnits a m ≤ (n * unitsPerOne : Nat)

def ltNat : Number → Nat → Bool
  | .nan, _ => false
  | .infinite a, _ => a
  | .finite a m _, n => signedUnits a m < (n * unitsPerOne : Nat)

def truncated? : Number → Option Int
  | .finite a m _ => some (signedUnits a (m / unitsPerOne))
  | _ => none

def isInteger : Number → Bool
  | .finite _ m _ => m % unitsPerOne == 0
  | _ => false

def maxSafe : Nat := significandLimit - 1

def isSafeInteger : Number → Bool
  | .finite _ m _ => m % unitsPerOne == 0 && m / unitsPerOne ≤ maxSafe
  | _ => false

def integer? (x : Number) : Option Int :=
  if x.isInteger then x.truncated? else none

def natural? (x : Number) : Option Nat :=
  match x.integer? with
  | some (.ofNat n) => some n
  | _ => none

/-- The same number when used as a key: `nan` is itself and the two zeros are one. -/
def key : Number → Number
  | .finite true 0 _ => zero
  | x => x

end Number

end ToolGate
