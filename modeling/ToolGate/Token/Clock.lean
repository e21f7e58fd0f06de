import ToolGate.Number.Decimal

namespace ToolGate

/-- A failed reading: an error with its message, a bare text, or a value that no text can be made
of. -/
inductive ClockFault where
  | error (message : String)
  | bare (text : String)
  | textless
deriving DecidableEq

def ClockFault.text? : ClockFault → Option String
  | .error message => some message
  | .bare text => some text
  | .textless => none

abbrev Reading := Except ClockFault Number

abbrev Clock := Nat → Reading

structure ManualClock where
  now : Number
  fault : Option ClockFault

namespace ManualClock

def start (now : Number) : ManualClock := ⟨now, none⟩

def reading (c : ManualClock) : Reading :=
  match c.fault with
  | none => .ok c.now
  | some f => .error f

def clock (c : ManualClock) : Clock := fun _ => c.reading

def advance (c : ManualClock) (ms : Number) : ManualClock :=
  { c with now := c.now + ms }

end ManualClock

end ToolGate
