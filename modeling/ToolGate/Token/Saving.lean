import ToolGate.Token.Archive

namespace ToolGate

/-- A folder whose names stand for files, which are numbered as they are made. -/
structure Disk where
  path : String
  made : Bool
  entries : Named Nat
  texts : List String

namespace Disk

def new (path : String) : Disk := ⟨path, false, [], []⟩

def text (d : Disk) (file : Nat) : String :=
  d.texts.getD file ""

def folder (d : Disk) : Folder :=
  ⟨d.path, d.made, d.entries.map fun e => (e.1, d.text e.2)⟩

def make (d : Disk) : Disk := { d with made := true }

def write (d : Disk) (file : Nat) (text : String) : Disk :=
  { d with texts := d.texts.set file text }

def add (d : Disk) (name : String) : Disk :=
  { d with entries := d.entries.put name d.texts.length, texts := d.texts ++ [""] }

def truncate (d : Disk) (name : String) : Nat × Disk :=
  match d.entries.get? name with
  | some file => (file, d.write file "")
  | none => (d.texts.length, d.add name)

def rename (d : Disk) (old new : String) : Except FileFault Disk :=
  match d.entries.get? old with
  | none => .error .missing
  | some file => .ok { d with entries := (d.entries.erase old).put new file }

end Disk

namespace Archive

inductive Stage where
  | ready
  | opened (name : String) (file : Nat)
  | written (name : String)
  | ended (answer : Except ArchiveFault Unit)

def proceed (d : Disk) (execution text : String) : Stage → Disk × Stage
  | .ready =>
      match fileName execution with
      | .error f => (d, .ended (.error f))
      | .ok name =>
          let d := d.make
          match d.folder.check (name ++ temporaryEnding) with
          | .error f => (d, .ended (.error (.file f)))
          | .ok () =>
              let opened := d.truncate (name ++ temporaryEnding)
              (opened.2, .opened name opened.1)
  | .opened name file => (d.write file text, .written name)
  | .written name =>
      match d.rename (name ++ temporaryEnding) name with
      | .error f => (d, .ended (.error (.file f)))
      | .ok d => (d, .ended (.ok ()))
  | .ended answer => (d, .ended answer)

structure Traffic where
  disk : Disk
  stage : Nat → Stage

namespace Traffic

def new (path : String) : Traffic := ⟨.new path, fun _ => .ready⟩

def put (s : Traffic) (k : Nat) (next : Disk × Stage) : Traffic :=
  ⟨next.1, fun j => if j = k then next.2 else s.stage j⟩

def step (saves : List (String × Text.Wide)) (s : Traffic) (k : Nat) : Traffic :=
  match saves[k]? with
  | none => s
  | some save => s.put k (proceed s.disk save.1 save.2.encoded (s.stage k))

def run (saves : List (String × Text.Wide)) (s : Traffic) (schedule : List Nat) : Traffic :=
  schedule.foldl (step saves) s

end Traffic

end Archive

end ToolGate
