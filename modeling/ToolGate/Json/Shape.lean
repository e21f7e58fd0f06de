import ToolGate.Json.Basic

namespace ToolGate.Json

variable {τ : Type}

inductive Kind where
  | null
  | boolean
  | number
  | string
  | array
  | object
deriving DecidableEq

def kind : Json τ → Kind
  | .null => .null
  | .bool _ => .boolean
  | .num _ => .number
  | .str _ => .string
  | .arr _ => .array
  | .obj _ => .object

def Kind.name : Kind → String
  | .null => "null"
  | .boolean => "boolean"
  | .number => "number"
  | .string => "string"
  | .array => "array"
  | .object => "object"

def quoted (s : String) : String := "'" ++ s ++ "'"

def choices (names : List String) : String :=
  " | ".intercalate (names.map quoted)

inductive Fault where
  | missing
  | kind (expected received : Kind)
  | choiceKind (names : List String) (received : Kind)
  | choice (names : List String) (received : String)
  | fraction
  | notPositive
  | negative
  | emptyText
  | emptyArray
  | notOne
  | invalidDate
  | unknownNames (names : List String)
deriving DecidableEq

def Fault.message : Fault → String
  | .missing => "Required"
  | .kind expected received => "Expected " ++ expected.name ++ ", received " ++ received.name
  | .choiceKind names received => "Expected " ++ choices names ++ ", received " ++ received.name
  | .choice names received =>
      "Invalid enum value. Expected " ++ choices names ++ ", received " ++ quoted received
  | .fraction => "Expected integer, received float"
  | .notPositive => "Number must be greater than 0"
  | .negative => "Number must be greater than or equal to 0"
  | .emptyText => "String must contain at least 1 character(s)"
  | .emptyArray => "Array must contain at least 1 element(s)"
  | .notOne => "Invalid literal value, expected 1"
  | .invalidDate => "Invalid date"
  | .unknownNames names =>
      "Unrecognized key(s) in object: " ++ ", ".intercalate (names.map quoted)

structure Issue where
  path : List String
  fault : Fault
deriving DecidableEq

namespace Issue

def place (i : Issue) : String := ".".intercalate i.path

def message (i : Issue) : String := i.fault.message

def located (i : Issue) : String :=
  if i.place = "" then i.message else i.place ++ ": " ++ i.message

end Issue

abbrev Checked := Except Issue

abbrev Shape (α : Type) (τ : Type := String) := Option (Json τ) → Checked α

namespace Shape

variable {α : Type}

def fail (f : Fault) : Checked α := .error ⟨[], f⟩

def ofKind (expected : Kind) (read : Json τ → Option α) : Shape α τ
  | none => fail .missing
  | some v =>
      match read v with
      | some a => .ok a
      | none => fail (.kind expected v.kind)

def string [Textual τ] : Shape String τ :=
  ofKind .string fun | .str s => some (Textual.whole s) | _ => none

def boolean : Shape Bool τ :=
  ofKind .boolean fun | .bool b => some b | _ => none

def number : Shape Number τ :=
  ofKind .number fun | .num x => some x | _ => none

def array : Shape (List (Json τ)) τ :=
  ofKind .array fun | .arr xs => some xs | _ => none

def object : Shape (Named (Json τ)) τ :=
  ofKind .object fun | .obj ms => some ms | _ => none

def filled [Textual τ] : Shape String τ := fun v => do
  let s ← string v
  if s = "" then fail .emptyText else .ok s

def integer : Shape Number τ := fun v => do
  let x ← number v
  if x.isInteger then .ok x else fail .fraction

def positive : Shape Number τ := fun v => do
  let x ← integer v
  if 0 < x then .ok x else fail .notPositive

def nonNegative : Shape Number τ := fun v => do
  let x ← integer v
  if 0 ≤ x then .ok x else fail .negative

def one : Shape Unit τ
  | some (.num x) => if x = 1 then .ok () else fail .notOne
  | _ => fail .notOne

def choice [Textual τ] (table : Named α) : Shape α τ
  | none => fail .missing
  | some (.str s) =>
      match table.get? (Textual.whole s) with
      | some a => .ok a
      | none => fail (.choice table.names (Textual.whole s))
  | some v => fail (.choiceKind table.names v.kind)

def orElse (default : α) (shape : Shape α τ) : Shape α τ
  | none => .ok default
  | some v => shape (some v)

def optional (shape : Shape α τ) : Shape (Option α) τ
  | none => .ok none
  | some v => (shape (some v)).map some

def nullable (shape : Shape α τ) : Shape (Option α) τ
  | some .null => .ok none
  | v => (shape v).map some

def under (name : String) : Checked α → Checked α
  | .ok a => .ok a
  | .error i => .error ⟨name :: i.path, i.fault⟩

def itemsFrom (shape : Shape α τ) (index : Nat) : List (Json τ) → Checked (List α)
  | [] => .ok []
  | v :: vs => do
      let a ← under (toString index) (shape (some v))
      let rest ← itemsFrom shape (index + 1) vs
      .ok (a :: rest)

def list (shape : Shape α τ) : Shape (List α) τ := fun v => do
  itemsFrom shape 0 (← array v)

def filledList (shape : Shape α τ) : Shape (List α) τ := fun v => do
  let vs ← array v
  if vs.isEmpty then fail .emptyArray else itemsFrom shape 0 vs

def member (name : String) (shape : Shape α τ) (ms : Named (Json τ)) : Checked α :=
  under name (shape (ms.get? name))

def only (names : List String) (ms : Named (Json τ)) : Checked Unit :=
  match (indexFirst (ms.filter fun m => !names.contains m.1)).names with
  | [] => .ok ()
  | unknown => fail (.unknownNames unknown)

end Shape

end ToolGate.Json
