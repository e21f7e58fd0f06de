import ToolGate.Number.Numeral

namespace ToolGate

inductive Instant where
  | invalid
  | at (ms : Int)
deriving DecidableEq

structure Day where
  year : Int
  month : Int
  day : Int
deriving DecidableEq

namespace Day

/-- The days from 1970-01-01 on, with years that begin in March. -/
def number (d : Day) : Int :=
  let year := if d.month ≤ 2 then d.year - 1 else d.year
  let era := year.fdiv 400
  let yearOfEra := year - era * 400
  let month := if d.month ≤ 2 then d.month + 9 else d.month - 3
  let dayOfYear := (153 * month + 2) / 5 + d.day - 1
  era * 146097 + yearOfEra * 365 + yearOfEra / 4 - yearOfEra / 100 + dayOfYear - 719468

def ofNumber (n : Int) : Day :=
  let days := n + 719468
  let era := days.fdiv 146097
  let dayOfEra := days - era * 146097
  let yearOfEra :=
    (dayOfEra - dayOfEra / 1460 + dayOfEra / 36524 - dayOfEra / 146096) / 365
  let dayOfYear := dayOfEra - (365 * yearOfEra + yearOfEra / 4 - yearOfEra / 100)
  let month := (5 * dayOfYear + 2) / 153
  let day := dayOfYear - (153 * month + 2) / 5 + 1
  let year := yearOfEra + era * 400
  if month < 10 then ⟨year, month + 3, day⟩ else ⟨year + 1, month - 9, day⟩

end Day

def padded (width : Nat) (n : Nat) : List Char :=
  let ds := (Nat.repr n).toList
  List.replicate (width - ds.length) '0' ++ ds

def yearChars (year : Int) : List Char :=
  if 0 ≤ year ∧ year ≤ 9999 then padded 4 year.toNat
  else (if year < 0 then '-' else '+') :: padded 6 year.natAbs

def Day.chars (d : Day) : List Char :=
  yearChars d.year ++ '-' :: padded 2 d.month.toNat ++ '-' :: padded 2 d.day.toNat

def msPerDay : Int := 86400000

namespace Instant

def range : Int := 100000000 * msPerDay

def ofInt (ms : Int) : Instant :=
  if ms.natAbs ≤ range.natAbs then .at ms else .invalid

def ofNumber (x : Number) : Instant :=
  match x.truncated? with
  | some ms => ofInt ms
  | none => .invalid

def before : Instant → Instant → Bool
  | .at a, .at b => a < b
  | _, _ => false

def timeChars (ms : Nat) : List Char :=
  padded 2 (ms / 3600000) ++ ':' :: padded 2 (ms / 60000 % 60) ++ ':' ::
    padded 2 (ms / 1000 % 60) ++ '.' :: padded 3 (ms % 1000)

def chars (ms : Int) : List Char :=
  (Day.ofNumber (ms.fdiv msPerDay)).chars ++ 'T' :: timeChars (ms.fmod msPerDay).toNat ++ ['Z']

def text? : Instant → Option String
  | .invalid => none
  | .at ms => some (String.ofList (chars ms))

/-- The text of the day, cut to the length that it has in the years 0 to 9999. -/
def dayText? : Instant → Option String
  | .invalid => none
  | .at ms => some (String.ofList ((chars ms).take 10))

def fixed? (width : Nat) (cs : List Char) : Option (Nat × List Char) :=
  let ds := cs.takeWhile Char.isDigit
  if ds.length = width then some (Numeral.natOf ds, cs.drop width) else none

def within? (low high : Nat) : Option (Nat × List Char) → Option (Nat × List Char)
  | some (n, rest) => if low ≤ n ∧ n ≤ high then some (n, rest) else none
  | none => none

def year? (cs : List Char) : Option (Int × List Char) :=
  match cs with
  | '+' :: rest => (fixed? 6 rest).map fun (n, rest) => ((n : Int), rest)
  | '-' :: rest =>
      match fixed? 6 rest with
      | some (0, _) => none
      | some (n, rest) => some (-(n : Int), rest)
      | none => none
  | cs => (fixed? 4 cs).map fun (n, rest) => ((n : Int), rest)

def afterMark? (mark : Char) (default : Nat) (part : List Char → Option (Nat × List Char))
    (cs : List Char) : Option (Nat × List Char) :=
  match cs with
  | c :: rest => if c = mark then part rest else some (default, cs)
  | [] => some (default, [])

def day? (cs : List Char) : Option (Int × List Char) := do
  let (year, cs) ← year? cs
  match cs with
  | '-' :: rest =>
      let (month, cs) ← within? 1 12 (fixed? 2 rest)
      let (day, cs) ← afterMark? '-' 1 (fun cs => within? 1 31 (fixed? 2 cs)) cs
      return ((Day.mk year month 1).number + (day - 1), cs)
  | cs => return ((Day.mk year 1 1).number, cs)

structure TimeOfDay where
  hour : Nat
  minute : Nat
  second : Nat
  fraction : List Char

namespace TimeOfDay

def fractionDigits : Nat := 9

/-- The milliseconds of a fraction. The digits that count are those behind leading zeros, though they
are scaled by the places of the whole fraction, zeros included, as far as these count. -/
def fractionMs (ds : List Char) : Nat :=
  let significant := (ds.dropWhile (· == '0')).take fractionDigits
  Numeral.natOf significant * 1000 / Nat.pow 10 (min ds.length fractionDigits)

def ms (t : TimeOfDay) : Nat :=
  t.hour * 3600000 + t.minute * 60000 + t.second * 1000 + fractionMs t.fraction

def isWithinDay (t : TimeOfDay) : Bool :=
  t.hour < 24 || (t.minute == 0 && t.second == 0 && t.fraction.all (· == '0'))

end TimeOfDay

def fraction? (cs : List Char) : Option (List Char × List Char) :=
  match cs with
  | '.' :: rest =>
      let ds := rest.takeWhile Char.isDigit
      if ds = [] then none else some (ds, rest.dropWhile Char.isDigit)
  | _ => some ([], cs)

def second? (cs : List Char) : Option (Nat × List Char × List Char) :=
  match cs with
  | ':' :: rest => do
      let (second, cs) ← within? 0 59 (fixed? 2 rest)
      let (fraction, cs) ← fraction? cs
      return (second, fraction, cs)
  | _ => some (0, [], cs)

def time? (cs : List Char) : Option (TimeOfDay × List Char) := do
  let (hour, cs) ← within? 0 24 (fixed? 2 cs)
  match cs with
  | ':' :: cs =>
      let (minute, cs) ← within? 0 59 (fixed? 2 cs)
      let (second, fraction, cs) ← second? cs
      let t : TimeOfDay := ⟨hour, minute, second, fraction⟩
      if t.isWithinDay then return (t, cs) else none
  | _ => none

def offsetMinutes? (cs : List Char) : Option Nat :=
  let hour? := fun cs => within? 0 23 (fixed? 2 cs)
  let minute? := fun cs => within? 0 59 (fixed? 2 cs)
  match hour? (cs.take 2), cs.drop 2 with
  | some (h, _), ':' :: rest =>
      match minute? rest with
      | some (m, []) => some (h * 60 + m)
      | _ => none
  | some (h, _), rest =>
      match minute? rest with
      | some (m, []) => some (h * 60 + m)
      | _ => none
  | none, _ => none

/-- The offset of a zone in milliseconds. A time of day without a zone is taken as UTC, as where local
time is UTC. -/
def zone? (cs : List Char) : Option Int :=
  match cs with
  | [] | ['Z'] | ['z'] => some 0
  | '+' :: rest => (offsetMinutes? rest).map fun m => (m : Int) * 60000
  | '-' :: rest => (offsetMinutes? rest).map fun m => -(m : Int) * 60000
  | _ => none

def parseMs? (cs : List Char) : Option Int := do
  let (day, cs) ← day? cs
  match cs with
  | [] => return day * msPerDay
  | c :: cs =>
      if c = 'T' ∨ c = 't' then
        let (time, cs) ← time? cs
        let zone ← zone? cs
        return day * msPerDay + time.ms - zone
      else none

/-- Reads a date in an ISO form, with or without a time of day and a zone. A text in any other form is
no instant here, though a host may read some more. -/
def parse (s : String) : Instant :=
  match parseMs? s.toList with
  | some ms => ofInt ms
  | none => .invalid

end Instant

end ToolGate
