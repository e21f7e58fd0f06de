import ToolGate.Journal.Instant
import ToolGate.Json.Printer
import ToolGate.Json.Shape

namespace ToolGate

inductive Category where
  | decision
  | authority
  | policy
  | restore
  | sink
deriving DecidableEq

def Category.table : Named Category :=
  [("decision", .decision), ("authority", .authority), ("policy", .policy),
    ("restore", .restore), ("sink", .sink)]

def Category.name : Category → String
  | .decision => "decision"
  | .authority => "authority"
  | .policy => "policy"
  | .restore => "restore"
  | .sink => "sink"

inductive Severity where
  | debug
  | info
  | warning
  | alert
  | critical
deriving DecidableEq

def Severity.table : Named Severity :=
  [("debug", .debug), ("info", .info), ("warning", .warning), ("alert", .alert),
    ("critical", .critical)]

def Severity.name : Severity → String
  | .debug => "debug"
  | .info => "info"
  | .warning => "warning"
  | .alert => "alert"
  | .critical => "critical"

def Severity.rank : Severity → Nat
  | .debug => 0
  | .info => 1
  | .warning => 2
  | .alert => 3
  | .critical => 4

inductive JournalFault where
  | invalidTime
  | noText
deriving DecidableEq

def JournalFault.message : JournalFault → String
  | .invalidTime => "Invalid time value"
  | .noText => "Value has no text"

structure Entry where
  id : String
  instant : Instant
  category : Category
  action : String
  severity : Severity
  execution : Option String
  callId : Option String
  metadata : Option (Named (Json Text.Wide))

namespace Entry

open Json (Shape Checked)

open Text (Wide)

def optionalMember {τ : Type} (name : String) : Option (Json τ) → Named (Json τ)
  | none => []
  | some v => [(name, v)]

def optionalText (name : String) (s : Option String) : Named (Json Wide) :=
  optionalMember name (s.map fun s : String => .str s)

def json (e : Entry) : Json Wide :=
  .obj <|
    ([("id", .str e.id), ("timestamp", (e.instant.text?.map (.str ·)).getD .null),
      ("category", .str e.category.name), ("action", .str e.action),
      ("severity", .str e.severity.name)] : Named (Json Wide)) ++
    optionalText "executionId" e.execution ++ optionalText "callId" e.callId ++
    optionalMember "metadata" (e.metadata.map .obj)

mutual

def plainText : Json Wide → Wide
  | .null => "null"
  | .bool b => if b then "true" else "false"
  | .num x => x.text
  | .str s => s
  | .arr items => Wide.join "," (itemTexts items)
  | .obj _ => "[object Object]"

def itemTexts : List (Json Wide) → List Wide
  | [] => []
  | .null :: rest => "" :: itemTexts rest
  | v :: rest => plainText v :: itemTexts rest

end

mutual

def hasText : Json Wide → Bool
  | .arr items => allHaveText items
  | .obj members => !Named.has Json.textName members
  | _ => true

def allHaveText : List (Json Wide) → Bool
  | [] => true
  | v :: rest => hasText v && allHaveText rest

end

def instantOf : Json Wide → Instant
  | .null => .at 0
  | .bool b => .at (if b then 1 else 0)
  | .num x => .ofNumber x
  | v => .parse (plainText v).encoded

def instantShape : Shape Instant Wide
  | none => Shape.fail .missing
  | some v =>
      match instantOf v with
      | .invalid => Shape.fail .invalidDate
      | t => .ok t

def metadataShape : Shape (Named (Json Wide)) Wide := fun v => do
  let ms ← Shape.object v
  return ms.filter (·.1 != Json.baseName)

def shape : Shape Entry Wide := fun v => do
  let ms ← Shape.object v
  let id ← Shape.member "id" Shape.string ms
  let instant ← Shape.member "timestamp" instantShape ms
  let category ← Shape.member "category" (Shape.choice Category.table) ms
  let action ← Shape.member "action" Shape.string ms
  let severity ← Shape.member "severity" (Shape.choice Severity.table) ms
  let execution ← Shape.member "executionId" (Shape.optional Shape.string) ms
  let callId ← Shape.member "callId" (Shape.optional Shape.string) ms
  let metadata ← Shape.member "metadata" (Shape.optional metadataShape) ms
  return ⟨id, instant, category, action, severity, execution, callId, metadata⟩

end Entry

end ToolGate
