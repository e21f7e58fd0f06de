import ToolGate.Named

namespace ToolGate

namespace FilePath

def addPart (absolute : Bool) (done : List String) (part : String) : List String :=
  if part = "" ∨ part = "." then done
  else if part = ".." then
    match done with
    | [] => if absolute then [] else [".."]
    | d :: ds => if d = ".." then ".." :: done else ds
  else part :: done

def normalize (path : String) : String :=
  let absolute := path.startsWith "/"
  let parts := ((path.toList.splitOn '/').map String.ofList).foldl (addPart absolute) []
  let body := "/".intercalate parts.reverse
  let closing := if path.endsWith "/" then "/" else ""
  if body = "" then
    if absolute then "/" else "." ++ closing
  else (if absolute then "/" else "") ++ body ++ closing

def join (parts : List String) : String :=
  match parts.filter (· != "") with
  | [] => "."
  | parts => normalize ("/".intercalate parts)

end FilePath

inductive Platform where
  | windows
  | mac
  | other
deriving DecidableEq

structure Surroundings where
  platform : Platform
  ownHome : Option String
  configHome : Option String
  userHome : String
  appData : Option String

namespace Surroundings

def given? : Option String → Option String
  | some "" => none
  | s => s

def home (s : Surroundings) : String :=
  match given? s.ownHome, given? s.configHome with
  | some path, _ => path
  | none, some path => FilePath.join [path, "flowguard"]
  | none, none =>
      match s.platform with
      | .windows => FilePath.join [(given? s.appData).getD "", "flowguard"]
      | .mac => FilePath.join [s.userHome, "Library", "Application Support", "flowguard"]
      | .other => FilePath.join [s.userHome, ".flowguard"]

end Surroundings

structure Home where
  path : String

namespace Home

def config (h : Home) : String := FilePath.join [h.path, "config.json"]

def localConfig (h : Home) : String := FilePath.join [h.path, "config.local.json"]

def policy (h : Home) : String := FilePath.join [h.path, "policy.json"]

def snapshots (h : Home) : String := FilePath.join [h.path, "snapshots"]

def journal (h : Home) : String := FilePath.join [h.path, "logs", "audit"]

end Home

end ToolGate
