import ToolGate.Journal.Entry

namespace ToolGate

def neverKept : List (List String) :=
  [["payload"], ["value", "content"], ["tool", "input"], ["tool", "output"]]

def maxMessageUnits : Nat := 500

def isControl (u : Nat) : Bool :=
  (u < 0x20 && u != 0x9) || u == 0x7F

def cleanMessage (s : Text.Wide) : Text.Wide :=
  .ofUnits ((s.units.map fun u => if isControl u then 0x20 else u).take maxMessageUnits)

def dropAt : List String → Named (Json Text.Wide) → Named (Json Text.Wide)
  | [], ms => ms
  | [name], ms => Named.erase name ms
  | name :: rest, ms =>
      match ms.get? name with
      | some (.obj inner) => Named.put name (.obj (dropAt rest inner)) ms
      | _ => ms

def cleanError (ms : Named (Json Text.Wide)) : Except JournalFault (Named (Json Text.Wide)) :=
  match ms.get? "errorMessage" with
  | none => .ok ms
  | some v =>
      if Entry.hasText v then
        .ok (Named.put "errorMessage" (.str (cleanMessage (Entry.plainText v))) ms)
      else .error .noText

def cleanMetadata (ms : Named (Json Text.Wide)) : Except JournalFault (Named (Json Text.Wide)) :=
  cleanError (neverKept.foldl (fun ms place => dropAt place ms) ms)

def Entry.sanitized (e : Entry) : Except JournalFault Entry :=
  match e.metadata with
  | none => .ok e
  | some ms => (cleanMetadata ms).map fun ms => { e with metadata := some ms }

end ToolGate
