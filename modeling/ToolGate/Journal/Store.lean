import ToolGate.Journal.Filter
import ToolGate.Journal.Redaction
import ToolGate.Json.Parser
import ToolGate.Text.Blank
import ToolGate.Folder

namespace ToolGate

/-- A folder of files, and the number of lines met in them that are no entries. -/
structure DayFiles where
  folder : Folder
  corrupt : Nat

inductive Store where
  | memory (entries : List Entry)
  | dayFiles (d : DayFiles)

namespace DayFiles

def dayOf (t : Instant) : Except JournalFault String :=
  match t.dayText? with
  | some day => .ok day
  | none => .error .invalidTime

def fileName (day : String) : String := "audit-" ++ day ++ ".jsonl"

def isDayText (cs : List Char) : Bool :=
  match cs with
  | [a, b, c, d, '-', e, f, '-', g, h] => [a, b, c, d, e, f, g, h].all Char.isDigit
  | _ => false

def dayOfFile? (name : String) : Option String :=
  let day := String.ofList ((name.toList.drop 6).take 10)
  if name = fileName day ∧ isDayText day.toList then some day else none

def make (d : DayFiles) : DayFiles := { d with folder := d.folder.make }

def addLine (d : DayFiles) (name line : String) : DayFiles :=
  let before := (d.folder.files.get? name).getD ""
  { d with folder := d.folder.put name (before ++ line ++ "\n") }

def append (d : DayFiles) (e : Entry) : Except JournalFault Unit × DayFiles :=
  match e.sanitized with
  | .error f => (.error f, d.make)
  | .ok e =>
      match dayOf e.instant with
      | .error f => (.error f, d.make)
      | .ok day => (.ok (), d.make.addLine (fileName day) e.json.text)

def lines (cs : List Char) : List (List Char) :=
  cs.foldr
    (fun c ls =>
      if c = '\n' then [] :: ls
      else match ls with
        | [] => [[c]]
        | l :: ls => (c :: l) :: ls)
    [[]]

def readLine (line : List Char) : Except JournalFault (Option Entry) :=
  match Json.parse? (String.ofList line) with
  | none => .ok none
  | some v =>
      if (v.member? "timestamp").all Entry.hasText then .ok (Entry.shape (some v)).toOption
      else .error .noText

def fileLines (content : String) : List (List Char) :=
  (lines content.toList).filter (!·.all Text.isBlank)

def readLines : List (List Char) → Except JournalFault (List Entry) × Nat
  | [] => (.ok [], 0)
  | line :: rest =>
      match readLine line with
      | .error fault => (.error fault, 0)
      | .ok none =>
          let (read, corrupt) := readLines rest
          (read, corrupt + 1)
      | .ok (some e) =>
          let (read, corrupt) := readLines rest
          (read.map (e :: ·), corrupt)

def dayWithin (earliest latest : Option String) (day : String) : Bool :=
  earliest.all (Text.le · day) && latest.all (Text.le day ·)

def relevant (d : DayFiles) (f : Filter) : Except JournalFault (List String) := do
  let earliest ← f.earliest.mapM dayOf
  let latest ← f.latest.mapM dayOf
  let names := d.folder.files.names.filter fun name =>
    (dayOfFile? name).any (dayWithin earliest latest)
  return (Text.sort names).reverse.filterMap fun name => d.folder.files.get? name

def reached (limit : Option Number) (count : Nat) : Bool :=
  limit.any (·.leNat count)

def collect (f : Filter) (found : List Entry) : List Entry → List Entry × Bool
  | [] => (found, false)
  | e :: rest =>
      if f.admits e then
        if reached f.limit? (found.length + 1) then (e :: found, true)
        else collect f (e :: found) rest
      else collect f found rest

def collectFiles (f : Filter) (found : List Entry) (corrupt : Nat) :
    List String → Except JournalFault (List Entry) × Nat
  | [] => (.ok found, corrupt)
  | content :: rest =>
      match readLines (fileLines content) with
      | (.error fault, more) => (.error fault, corrupt + more)
      | (.ok read, more) =>
          match collect f found read with
          | (found, true) => (.ok found, corrupt + more)
          | (found, false) => collectFiles f found (corrupt + more) rest

def query (d : DayFiles) (f : Filter) : Except JournalFault (List Entry) × DayFiles :=
  match d.relevant f with
  | .error fault => (.error fault, d.make)
  | .ok contents =>
      let (found, corrupt) := collectFiles f [] d.corrupt contents
      (found.map List.reverse, { d.make with corrupt })

end DayFiles

namespace Store

def limited (limit : Option Number) (es : List Entry) : List Entry :=
  match limit with
  | none | some .nan => es
  | some (.infinite negative) => if negative then [] else es
  | some x => match x.truncated? with
    | some (.ofNat n) => es.take n
    | some (.negSucc n) => es.take (es.length - (n + 1))
    | none => es

def append (s : Store) (e : Entry) : Except JournalFault Unit × Store :=
  match s with
  | .memory es =>
      match e.sanitized with
      | .error f => (.error f, s)
      | .ok e => (.ok (), .memory (es ++ [e]))
  | .dayFiles d =>
      let (r, d) := d.append e
      (r, .dayFiles d)

def query (s : Store) (f : Filter) : Except JournalFault (List Entry) × Store :=
  match s with
  | .memory es => (.ok (limited f.limit? (es.filter f.admits)), s)
  | .dayFiles d =>
      let (r, d) := d.query f
      (r, .dayFiles d)

def corrupt? : Store → Option Nat
  | .memory _ => none
  | .dayFiles d => some d.corrupt

end Store

end ToolGate
