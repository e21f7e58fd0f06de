import ToolGate.Json.Basic

namespace ToolGate

inductive Setting where
  | unset
  | value (v : Json)
  | group (members : List (String × Setting)) (base : Setting)
deriving Inhabited

abbrev Settings := Named Setting

namespace Setting

def plain (members : Settings) : Setting := .group members .unset

def nothing : Setting := .value .null

mutual

def ofJson : Json → Setting
  | .obj members => .group (ofMembers members) .unset
  | v => .value v

def ofMembers : List (String × Json) → List (String × Setting)
  | [] => []
  | (name, v) :: rest => (name, ofJson v) :: ofMembers rest

end

def overlay (own base : List (String × Option Json)) : List (String × Option Json) :=
  own ++ base.filter fun e => !own.any (·.1 == e.1)

def given (entries : List (String × Option Json)) : List (String × Json) :=
  entries.filterMap fun e => e.2.map fun v => (e.1, v)

mutual

def json? : Setting → Option Json
  | .unset => none
  | .value v => some v
  | .group members base => some (.obj (given (overlay (shown members) (inherited base))))

def shown : List (String × Setting) → List (String × Option Json)
  | [] => []
  | (name, s) :: rest => (name, json? s) :: shown rest

def inherited : Setting → List (String × Option Json)
  | .group members base => overlay (shown members) (inherited base)
  | _ => []

end

def members : Setting → Settings
  | .group ms _ => ms
  | _ => []

def commonMember? (name : String) : Option Setting :=
  if Json.commonNames.contains name then some (.value (.obj [])) else none

def find? (name : String) : Setting → Option Setting
  | .group ms .unset => (Named.get? name ms).or (commonMember? name)
  | .group ms base => (Named.get? name ms).or (find? name base)
  | _ => none

def isRootless : Setting → Bool
  | .group _ base => isRootless base
  | .value .null => true
  | _ => false

def baseOf? : Setting → Option Setting
  | .group _ .unset => some (.group [] nothing)
  | .group ms base => if isRootless (.group ms base) then none else some base
  | _ => none

/-- What a member is laid over. The name of the base stands for that, unless it is a member. -/
def under? (name : String) (s : Setting) : Option Setting :=
  match s.find? name with
  | some found => some found
  | none => if name = Json.baseName then s.baseOf? else none

def canBeBase : Setting → Bool
  | .group .. | .value .null | .value (.arr _) => true
  | _ => false

def put (s : Setting) (name : String) (v : Setting) : Setting :=
  match s with
  | .group ms base =>
      if name = Json.baseName ∧ !Named.has name ms then
        .group ms (if v.canBeBase then v else base)
      else .group (Named.put name v ms) base
  | s => s

mutual

def mergeAll (target done : Setting) : List (String × Setting) → Setting
  | [] => done
  | (name, s) :: rest =>
      match mergeOne (target.under? name) s with
      | none => mergeAll target done rest
      | some v => mergeAll target (done.put name v) rest

def mergeOne (target : Option Setting) : Setting → Option Setting
  | .unset => none
  | .value v => some (.value v)
  | .group ms base =>
      match target with
      | some (.group under underBase) =>
          some (mergeAll (.group under underBase) (.group under .unset) ms)
      | _ => some (.group ms base)

end

/-- Lays one tree over another. The members of the lower one stay, its base does not. -/
def merge (target source : Setting) : Setting :=
  (mergeOne (some target) source).getD target

def at? : List String → Setting → Option Setting
  | [], .unset => none
  | [], s => some s
  | name :: path, s => (s.find? name).bind (at? path)

end Setting

namespace Settings

/-- Puts a setting at a path; what stands in its way gives way to groups. The setting and the tree
share no parts, so a later change at one place shows at no other, and the name of the base is no part
of the path: below that name a change would reach the base itself. -/
def set (s : Setting) : List String → Settings → Settings
  | [], base => base
  | [name], base => Named.put name s base
  | name :: path, base =>
      let inner := ((Named.get? name base).map Setting.members).getD []
      Named.put name (.plain (set s path inner)) base

def pathParts (path : List Char) : List (List Char) :=
  path.foldr
    (fun c parts =>
      if c = '.' then [] :: parts
      else match parts with
        | [] => [[c]]
        | p :: ps => (c :: p) :: ps)
    [[]]

def path (s : String) : List String :=
  (pathParts s.toList).map String.ofList

end Settings

end ToolGate
