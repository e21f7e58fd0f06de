import ToolGate.Journal.Entry
import ToolGate.Settings.Environment
import ToolGate.Settings.Home

namespace ToolGate

open Json (Shape Checked)

structure Config where
  policyPath : String
  snapshotsPath : String
  journalEnabled : Bool
  journalPath : String
  level : Severity
  defaultSubject : Option String

inductive ConfigFault where
  | notJson (file : String)
  | notObject (file : String)
  | invalid (issue : Json.Issue)
deriving DecidableEq

namespace ConfigFault

def message : ConfigFault → String
  | .notJson file => file ++ " is not valid JSON: malformed text"
  | .notObject file => file ++ " must contain a JSON object"
  | .invalid issue =>
      "Invalid configuration at " ++ (if issue.place = "" then "(root)" else issue.place) ++ ": " ++
        issue.message

def field : ConfigFault → String
  | .notJson file | .notObject file => file
  | .invalid issue => issue.place

end ConfigFault

namespace Config

def text (s : String) : Setting := .value (.str s)

def defaults (h : Home) : Setting :=
  .plain
    [("version", .value (.num 1)),
      ("policy", .plain [("path", text h.policy)]),
      ("snapshots", .plain [("dir", text h.snapshots)]),
      ("audit",
        .plain [("enabled", .value (.bool true)), ("dir", text h.journal), ("level", text "info")]),
      ("evaluation", .plain [])]

def placeShape (name : String) : Shape String := fun v => do
  let ms ← Shape.object v
  Shape.member name Shape.filled ms

def journalShape : Shape (Bool × String × Severity) := fun v => do
  let ms ← Shape.object v
  let enabled ← Shape.member "enabled" (Shape.orElse true Shape.boolean) ms
  let dir ← Shape.member "dir" Shape.filled ms
  let level ← Shape.member "level" (Shape.orElse .info (Shape.choice Severity.table)) ms
  return (enabled, dir, level)

def subjectShape : Shape (Option String) := fun v => do
  let ms ← Shape.object v
  Shape.member "defaultSubject" (Shape.optional Shape.filled) ms

def shape : Shape Config := fun v => do
  let ms ← Shape.object v
  Shape.member "version" (Shape.orElse () Shape.one) ms
  let policy ← Shape.member "policy" (placeShape "path") ms
  let snapshots ← Shape.member "snapshots" (placeShape "dir") ms
  let (enabled, dir, level) ← Shape.member "audit" journalShape ms
  let subject ← Shape.member "evaluation" (Shape.orElse none subjectShape) ms
  return ⟨policy, snapshots, enabled, dir, level, subject⟩

def ofSetting (s : Setting) : Except ConfigFault Config :=
  (shape s.json?).mapError .invalid

def readFile (path content : String) : Except ConfigFault Setting :=
  match Json.parse? content with
  | none => .error (.notJson path)
  | some (.obj ms) => .ok (.ofJson (.obj ms))
  | some _ => .error (.notObject path)

def addFile (files : Named String) (path : String) (base : Setting) : Except ConfigFault Setting :=
  match files.get? path with
  | none => .ok base
  | some content => (readFile path content).map base.merge

def jsonEnding : List Char := ".json".toList

def localPath (path : String) : String :=
  let cs := path.toList
  if jsonEnding.isSuffixOf cs then
    String.ofList (cs.take (cs.length - jsonEnding.length) ++ ".local.json".toList)
  else path

def localFile (h : Home) : Option String → String
  | none | some "" => h.localConfig
  | some path => localPath path

def load (files : Named String) (h : Home) (named : Option String)
    (env : List (String × String)) (overrides : Setting) : Except ConfigFault Config := do
  let base ← addFile files (named.getD h.config) (defaults h)
  let base ← addFile files (localFile h named) base
  ofSetting ((base.merge (.plain (Environment.settings env))).merge overrides)

end Config

end ToolGate
