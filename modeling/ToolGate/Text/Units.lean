import ToolGate.Sorting

namespace ToolGate.Text

def charUnits (c : Char) : List Nat :=
  if c.toNat < 0x10000 then [c.toNat]
  else [0xD800 + (c.toNat - 0x10000) / 0x400, 0xDC00 + (c.toNat - 0x10000) % 0x400]

def units (s : String) : List Nat :=
  s.toList.flatMap charUnits

def unitsLe : List Nat → List Nat → Bool
  | [], _ => true
  | _ :: _, [] => false
  | a :: as, b :: bs => a < b || (a == b && unitsLe as bs)

def le (a b : String) : Bool :=
  unitsLe (units a) (units b)

def sort (xs : List String) : List String :=
  (sortBy (fun a b => unitsLe a.1 b.1) (xs.map fun s => (units s, s))).map Prod.snd

end ToolGate.Text
