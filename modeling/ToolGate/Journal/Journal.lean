import ToolGate.Journal.Store
import ToolGate.Token.Basic

namespace ToolGate

structure Journal where
  store : Store
  floor : Severity
  now : Instant
  ids : IdSource

structure Note where
  category : Category
  action : String
  severity : Severity
  execution : Option String
  callId : Option String
  metadata : Option (Named (Json Text.Wide))

namespace Journal

def log (j : Journal) (n : Note) : Except JournalFault Bool × Journal :=
  if n.severity.rank < j.floor.rank then (.ok false, j)
  else
    let (id, ids) := j.ids.draw
    let entry :=
      ⟨id, j.now, n.category, n.action, n.severity, n.execution, n.callId, n.metadata⟩
    let (r, store) := j.store.append entry
    (r.map fun _ => true, { j with store, ids })

def query (j : Journal) (f : Filter) : Except JournalFault (List Entry) × Journal :=
  let (r, store) := j.store.query f
  (r, { j with store })

end Journal

end ToolGate
