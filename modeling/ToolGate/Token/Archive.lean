import ToolGate.Folder
import ToolGate.Text.Wide

namespace ToolGate

inductive ArchiveFault where
  | invalidName (execution : String)
  | file (f : FileFault)
deriving DecidableEq

def ArchiveFault.message : ArchiveFault → String
  | .invalidName execution =>
      "Execution ID '" ++ execution ++ "' cannot be used as a file name"
  | .file .nameTooLong => "File name is too long"
  | .file .missing => "File is missing"

namespace Archive

def ending : String := ".authority.json"

def temporaryEnding : String := ".tmp"

def isNameChar (c : Char) : Bool :=
  c.isAlphanum || c == '_' || c == '.' || c == '-'

def fileName (execution : String) : Except ArchiveFault String :=
  if execution != "" && execution.toList.all isNameChar then .ok (execution ++ ending)
  else .error (.invalidName execution)

/-- The text is written under a temporary name first, which is longer; the folder is made before. -/
def save (d : Folder) (execution : String) (text : Text.Wide) :
    Except ArchiveFault Unit × Folder :=
  match fileName execution with
  | .error f => (.error f, d)
  | .ok name =>
      let d := d.make
      match d.check (name ++ temporaryEnding) with
      | .error f => (.error (.file f), d)
      | .ok () => (.ok (), (d.erase (name ++ temporaryEnding)).put name text.encoded)

def load (d : Folder) (execution : String) : Except ArchiveFault (Option Text.Wide) :=
  match fileName execution with
  | .error f => .error f
  | .ok name =>
      match d.read name with
      | .ok text => .ok (some (.ofString text))
      | .error .missing => .ok none
      | .error f => .error (.file f)

def executionOf? (name : String) : Option String :=
  let stem := String.ofList (name.toList.take (name.length - ending.length))
  if name = stem ++ ending then some stem else none

def list (d : Folder) : List String :=
  Text.sort (d.files.names.filterMap executionOf?)

end Archive

end ToolGate
