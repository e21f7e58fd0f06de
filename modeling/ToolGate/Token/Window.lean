import ToolGate.Number.Basic

namespace ToolGate

structure Window where
  notBefore : Number
  expiresAt : Option Number
deriving DecidableEq

inductive WindowStatus where
  | valid
  | expired
  | notYetValid
deriving DecidableEq

namespace Window

def isBound (x : Number) : Bool :=
  x.isSafeInteger && Number.zero ≤ x

def isWellFormed (w : Window) : Bool :=
  isBound w.notBefore && w.expiresAt.all fun e => isBound e && w.notBefore < e

def isNarrower (outer inner : Window) : Bool :=
  match inner.expiresAt with
  | none => false
  | some e => !decide (inner.notBefore < outer.notBefore) && outer.expiresAt.all (e < ·)

def status (w : Window) (instant : Number) : WindowStatus :=
  if w.expiresAt.any (· ≤ instant) then .expired
  else if instant < w.notBefore then .notYetValid
  else .valid

end Window

end ToolGate
