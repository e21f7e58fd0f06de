import ToolGate.Named
import ToolGate.Number.Decimal
import ToolGate.Text.Wide

namespace ToolGate

inductive Json (τ : Type := String) where
  | null
  | bool (b : Bool)
  | num (x : Number)
  | str (s : τ)
  | arr (items : List (Json τ))
  | obj (members : List (String × Json τ))
deriving Inhabited

namespace Json

variable {τ : Type}

/-- In an object put together member by member this name is no member: it names what the object is
based on. -/
def baseName : String := "__proto__"

def textName : String := "toString"

/-- The members that an object has from the common base. -/
def commonNames : List String :=
  ["constructor", "hasOwnProperty", "isPrototypeOf", "propertyIsEnumerable", "toLocaleString",
    textName, "valueOf", "__defineGetter__", "__defineSetter__", "__lookupGetter__",
    "__lookupSetter__"]

def isObject : Json τ → Bool
  | .obj _ => true
  | _ => false

def member? (name : String) : Json τ → Option (Json τ)
  | .obj members => Named.get? name members
  | _ => none

def text? : Json τ → Option τ
  | .str s => some s
  | _ => none

end Json

end ToolGate
