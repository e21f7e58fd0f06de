import ToolGate.Number.Decimal

namespace ToolGate

structure Numeral where
  negative : Bool
  whole : List Char
  fraction : List Char
  exponent : Int

namespace Numeral

def natOf (ds : List Char) : Nat :=
  ds.foldl (fun n c => n * 10 + (c.toNat - '0'.toNat)) 0

def number (x : Numeral) : Number :=
  .ofDecimal x.negative (natOf (x.whole ++ x.fraction)) (x.exponent - x.fraction.length)

def sign : List Char → Bool × List Char
  | '-' :: cs => (true, cs)
  | cs => (false, cs)

def exponentSign : List Char → Bool × List Char
  | '-' :: cs => (true, cs)
  | '+' :: cs => (false, cs)
  | cs => (false, cs)

def exponent? (cs : List Char) : Option Int :=
  let (negative, ds) := exponentSign cs
  if ds ≠ [] ∧ ds.all Char.isDigit then
    some (if negative then -(natOf ds : Int) else natOf ds)
  else none

def parse? (cs : List Char) : Option Numeral :=
  let (negative, cs) := sign cs
  let whole := cs.takeWhile Char.isDigit
  let cs := cs.dropWhile Char.isDigit
  if whole = [] then none else
  let (fraction, cs) := match cs with
    | '.' :: rest => (some (rest.takeWhile Char.isDigit), rest.dropWhile Char.isDigit)
    | _ => (none, cs)
  if fraction = some [] then none else
  match cs with
  | [] => some ⟨negative, whole, fraction.getD [], 0⟩
  | c :: rest =>
      if c = 'e' ∨ c = 'E' then
        (exponent? rest).map fun e => ⟨negative, whole, fraction.getD [], e⟩
      else none

def isCanonical (x : Numeral) : Bool :=
  x.whole.head? != some '0' || x.whole.length == 1

end Numeral

end ToolGate
