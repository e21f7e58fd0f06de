import ToolGate.Text.Blank

namespace ToolGate

inductive Integrity where
  | untrusted
  | trusted
  | verified (tag : String)
deriving DecidableEq

namespace Integrity

def join (a b : Integrity) : Integrity :=
  if a = b then a else .untrusted

def satisfies (actual required : Integrity) : Bool :=
  required == .untrusted || actual == required

def text : Integrity → String
  | .untrusted => "Untrusted"
  | .trusted => "Trusted"
  | .verified tag => "Verified(" ++ tag ++ ")"

def isParenthesis (c : Char) : Bool :=
  c == '(' || c == ')'

def behind? : List Char → List Char → Option (List Char)
  | [], cs => some cs
  | c :: start, d :: cs => if c = d then behind? start cs else none
  | _ :: _, [] => none

def enclosed? (cs : List Char) : Option (List Char) :=
  match behind? "Verified(".toList cs with
  | none => none
  | some rest =>
      let tag := rest.takeWhile (!isParenthesis ·)
      if tag ≠ [] ∧ rest.drop tag.length = [')'] then some tag else none

def parse? (s : String) : Option Integrity :=
  if s = text .untrusted then some .untrusted
  else if s = text .trusted then some .trusted
  else match enclosed? s.toList with
    | none => none
    | some tag => if Text.trim tag = tag then some (.verified (String.ofList tag)) else none

theorem satisfies_iff (a r : Integrity) : a.satisfies r ↔ r = .untrusted ∨ a = r := by
  simp [satisfies]

end Integrity

end ToolGate
