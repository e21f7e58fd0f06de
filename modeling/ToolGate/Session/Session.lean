import ToolGate.Policy.Document
import ToolGate.Session.Notes
import ToolGate.Token.Archive
import ToolGate.Token.Snapshot

namespace ToolGate

structure Session where
  policy : Policy
  journal : Journal
  archive : Folder
  defaultSubject : Option String
  current : Execution

inductive SessionFault where
  | token (f : TokenFault)
  | snapshot (f : SnapshotFault)
  | archive (f : ArchiveFault)
  | noSnapshot (execution : String)
  | clock (f : ClockFault)
  | evaluation (f : EvaluationFault)
  | journal (f : JournalFault)
deriving DecidableEq

def SessionFault.message? : SessionFault → Option String
  | .token f => f.message?
  | .snapshot f => some f.message
  | .archive f => some f.message
  | .noSnapshot execution => some ("No snapshot saved for execution " ++ execution)
  | .clock f => f.text?
  | .evaluation f => some f.message
  | .journal f => some f.message

inductive OpeningFault where
  | file (f : FileFault)
  | policy (f : PolicyFault)
  | journal (f : JournalFault)
deriving DecidableEq

def Execution.restore (id : String) (p : Policy) (snapshot : String) (held : List String)
    (now : Reading) : Except SessionFault (Revalidation × Execution) := do
  let table ← (Snapshot.read snapshot).mapError .snapshot
  match now with
  | .error f => throw (.clock f)
  | .ok now => return (table.revalidate held now, .start id p table)

namespace Session

def start (policies : Folder) (name : String) (archive : Folder) (j : Journal)
    (defaultSubject : Option String) (execution : String) : Except OpeningFault Session := do
  let text ← (policies.read name).mapError .file
  let p ← (Policy.parse text).mapError .policy
  match j.log (.policyLoaded p (policies.path ++ "/" ++ name)) with
  | (.error f, _) => throw (.journal f)
  | (.ok _, j) => return ⟨p, j, archive, defaultSubject, .start execution p .empty⟩

def note (s : Session) (n : Note) : Except SessionFault Session :=
  match s.journal.log n with
  | (.error f, _) => .error (.journal f)
  | (.ok _, journal) => .ok { s with journal }

def setTable (s : Session) (table : Table) : Session :=
  { s with current := { s.current with table } }

def setGraph (s : Session) (graph : Graph) : Session :=
  { s with current := { s.current with graph } }

def begin (s : Session) (execution : String) : Session :=
  { s with current := .start execution s.policy .empty }

def effective (s : Session) (r : Request) : Request :=
  { r with subject := r.subject.or s.defaultSubject }

def mediate (s : Session) (r : Request) (now : Reading) :
    Except SessionFault (Evaluation × Session) := do
  let e ← (s.current.evaluate (s.effective r) now).mapError .evaluation
  let s ← s.note (.decision e)
  return (e, s)

def preDispatch (s : Session) (callId : String) (path : CallPath) (redacted : Option Bool) :
    Except SessionFault (SinkRecord × Session) := do
  let record := SinkRequest.record ⟨s.current.id, callId, path, redacted⟩
  let s ← s.note (.dispatch record)
  return (record, s)

def guardTransport (s : Session) (callId : String) (redacted : Option Bool) :
    Except SessionFault (Bool × Session) := do
  let check : TransportCheck := ⟨s.current.id, callId, redacted⟩
  let s ← s.note (.transport check)
  return (check.passes, s)

def mint (s : Session) (clock : Clock) (ids : IdSource) (r : MintRequest) :
    Except SessionFault (Token × Session) × IdSource :=
  match s.current.table.mint clock ids r with
  | (.error f, ids) => (.error (.token f), ids)
  | (.ok (k, table), ids) =>
      (((s.setTable table).note (.minted s.current.id k)).map fun s => (k, s), ids)

def delegate (s : Session) (clock : Clock) (ids : IdSource) (parent : String)
    (r : DelegationRequest) :
    Except SessionFault (Except Refusal Token × Session) × IdSource :=
  match s.current.table.delegate clock ids parent r with
  | (.error f, ids) => (.error (.token f), ids)
  | (.ok (.error refusal), ids) =>
      ((s.note (.refused s.current.id parent refusal)).map fun s => (.error refusal, s), ids)
  | (.ok (.ok (k, table)), ids) =>
      (((s.setTable table).note (.delegated s.current.id parent k)).map fun s => (.ok k, s), ids)

def revoke (s : Session) (id : String) : Except SessionFault (Bool × Session) :=
  match s.current.table.revoke id with
  | .error f => .error (.token f)
  | .ok (changed, table) =>
      ((s.setTable table).note (.revoked s.current.id id changed)).map fun s => (changed, s)

def writeSnapshot (s : Session) (execution : String) (text : Text.Wide) :
    Except SessionFault Unit × Session :=
  let (saved, archive) := Archive.save s.archive execution text
  (saved.mapError .archive, { s with archive })

def suspend (s : Session) : Except SessionFault String × Session :=
  let text := Snapshot.write s.current.table
  match s.writeSnapshot s.current.id text with
  | (.error f, s) => (.error f, s)
  | (.ok (), s) =>
      match s.note (.saved s.current.id s.current.table.toList.length) with
      | .error f => (.error f, s)
      | .ok s => (.ok text, s)

def resume (s : Session) (execution : String) (held : List String) (now : Reading) :
    Except SessionFault (Revalidation × Session) := do
  match ← (Archive.load s.archive execution).mapError .archive with
  | none => throw (.noSnapshot execution)
  | some text => do
      let (held, current) ← Execution.restore execution s.policy text.encoded held now
      let s ← s.note (.restored execution held)
      return (held, { s with current })

def restore (s : Session) (execution text : String) (held : List String) (now : Reading) :
    Except SessionFault (Revalidation × Session) := do
  let (held, current) ← Execution.restore execution s.policy text held now
  return (held, { s with current })

def query (s : Session) (f : Filter) : Except SessionFault (List Entry) × Session :=
  let (r, journal) := s.journal.query f
  (r.mapError .journal, { s with journal })

end Session

end ToolGate
