import ToolGate.Number.Basic

namespace ToolGate

def roundUnits (num den : Nat) : Nat :=
  let shift := (num / den).log2 - 52
  let scale := den <<< shift
  let floor := num / scale
  let rest := 2 * (num % scale)
  let up := scale < rest || (scale == rest && floor % 2 == 1)
  (if up then floor + 1 else floor) <<< shift

theorem div_shift_lt (num den : Nat) :
    num / (den <<< ((num / den).log2 - 52)) < significandLimit := by
  rw [significandLimit, Nat.one_shiftLeft, Nat.shiftLeft_eq, ← Nat.div_div_eq_div_mul,
    Nat.div_lt_iff_lt_mul (Nat.two_pow_pos _), ← Nat.pow_add]
  exact Nat.lt_of_lt_of_le Nat.lt_log2_self (Nat.pow_le_pow_right (by decide) (by omega))

theorem fits_roundUnits {num den : Nat} (h : roundUnits num den < unitsLimit) :
    Fits (roundUnits num den) := by
  refine ⟨h, _, (num / den).log2 - 52, ?_, rfl⟩
  have := div_shift_lt num den
  split <;> omega

namespace Number

def ofRatio (negative : Bool) (num den : Nat) : Number :=
  if h : roundUnits num den < unitsLimit then
    .finite negative (roundUnits num den) (fits_roundUnits h)
  else .infinite negative

def ofInt (i : Int) : Number :=
  ofRatio (i < 0) (i.natAbs * unitsPerOne) 1

def ofNat (n : Nat) : Number := ofInt n

instance (n : Nat) : OfNat Number n := ⟨ofNat n⟩

def ofDecimal (negative : Bool) (digits : Nat) (exponent : Int) : Number :=
  match exponent with
  | .ofNat e =>
      if digits = 0 then ofRatio negative 0 1
      else if 400 < e then .infinite negative
      else ofRatio negative (digits * Nat.pow 10 e * unitsPerOne) 1
  | .negSucc e =>
      if 400 + digits.log2 < e then ofRatio negative 0 1
      else ofRatio negative (digits * unitsPerOne) (Nat.pow 10 (e + 1))

def add : Number → Number → Number
  | .nan, _ | _, .nan => .nan
  | .infinite a, .infinite b => if a == b then .infinite a else .nan
  | .infinite a, .finite .. => .infinite a
  | .finite .., .infinite b => .infinite b
  | .finite a m _, .finite b n _ =>
      let sum := signedUnits a m + signedUnits b n
      ofRatio (if sum = 0 then a && b else sum < 0) sum.natAbs 1

instance : Add Number := ⟨add⟩

/-- Decimal digits as a number, with the place of the point: `0.d₁d₂… * 10 ^ place`. -/
structure Digits where
  digits : List Char
  place : Int

def digitsOf (n : Nat) : List Char := (Nat.repr n).toList

def leadingZeros (units : Nat) : Nat → Nat
  | 0 => 0
  | fuel + 1 => if unitsPerOne ≤ units * 10 then 0 else 1 + leadingZeros (units * 10) fuel

def placeOf (units : Nat) : Int :=
  if unitsPerOne ≤ units then (digitsOf (units / unitsPerOne)).length
  else -(leadingZeros units 400 : Int)

def gridNeighbours (units : Nat) (exponent : Int) : List Nat :=
  let (num, den) := match exponent with
    | .ofNat e => (units, unitsPerOne * Nat.pow 10 e)
    | .negSucc e => (units * Nat.pow 10 (e + 1), unitsPerOne)
  let low := num / den
  let rest := 2 * (num % den)
  if rest < den || (rest == den && low % 2 == 0) then [low, low + 1] else [low + 1, low]

def readsBack (units : Nat) (exponent : Int) (digits : Nat) : Bool :=
  match ofDecimal false digits exponent with
  | .finite _ u _ => u == units
  | _ => false

/-- The first grid with a neighbour that reads back; behind the last one stands the exact expansion. -/
def shortestFrom (units : Nat) (place : Int) (count : Nat) : Nat → Nat × Int
  | 0 => (units * Nat.pow 5 1074, -1074)
  | fuel + 1 =>
      match (gridNeighbours units (place - count)).find? (readsBack units (place - count)) with
      | some digits => (digits, place - count)
      | none => shortestFrom units place (count + 1) fuel

def shortest (units : Nat) : Nat × Int :=
  shortestFrom units (placeOf units) 1 17

def dropTrailingZeros (cs : List Char) : List Char :=
  (cs.reverse.dropWhile (· == '0')).reverse

def digitsAt (units : Nat) : Digits :=
  let (d, e) := shortest units
  let cs := digitsOf d
  ⟨dropTrailingZeros cs, e + cs.length⟩

def zeros (n : Nat) : List Char := List.replicate n '0'

def exponentText (e : Int) : List Char :=
  (if e < 0 then '-' else '+') :: digitsOf e.natAbs

def Digits.layout (d : Digits) : List Char :=
  let count : Int := d.digits.length
  if 0 < d.place ∧ d.place ≤ 21 then
    if count ≤ d.place then d.digits ++ zeros (d.place - count).toNat
    else d.digits.take d.place.toNat ++ '.' :: d.digits.drop d.place.toNat
  else if -6 < d.place ∧ d.place ≤ 0 then '0' :: '.' :: zeros (-d.place).toNat ++ d.digits
  else
    let fraction := if d.digits.length ≤ 1 then [] else '.' :: d.digits.drop 1
    d.digits.take 1 ++ fraction ++ 'e' :: exponentText (d.place - 1)

def magnitudeChars (units : Nat) : List Char :=
  if units = 0 then ['0'] else (digitsAt units).layout

def chars : Number → List Char
  | .nan => "NaN".toList
  | .infinite a => (if a then "-Infinity" else "Infinity").toList
  | .finite a m _ => (if a && m != 0 then ['-'] else []) ++ magnitudeChars m

def text (x : Number) : String := String.ofList x.chars

end Number

end ToolGate
