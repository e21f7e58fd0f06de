import ToolGate.Named

namespace ToolGate

structure Folder where
  path : String
  made : Bool
  files : Named String

inductive FileFault where
  | missing
  | nameTooLong
deriving DecidableEq

def maxFileName : Nat := 255

def maxFilePath : Nat := 4095

namespace Folder

def new (path : String) : Folder := ⟨path, false, []⟩

def holding (path : String) (files : Named String) : Folder := ⟨path, true, files⟩

def check (f : Folder) (name : String) : Except FileFault Unit :=
  if maxFilePath < (f.path ++ "/" ++ name).utf8ByteSize then .error .nameTooLong
  else if !f.made then .error .missing
  else if maxFileName < name.utf8ByteSize then .error .nameTooLong
  else .ok ()

def read (f : Folder) (name : String) : Except FileFault String := do
  f.check name
  match f.files.get? name with
  | none => throw .missing
  | some text => return text

def make (f : Folder) : Folder := { f with made := true }

def put (f : Folder) (name text : String) : Folder :=
  { f with files := f.files.put name text }

def erase (f : Folder) (name : String) : Folder :=
  { f with files := f.files.erase name }

end Folder

end ToolGate
