import ToolGate.Json.Parser
import ToolGate.Settings.Tree
import ToolGate.Text.Case

namespace ToolGate.Environment

def variablePrefix : String := "FLOWGUARD_"

def homeVariable : String := "FLOWGUARD_HOME"

def segments : List Char → List (List Char)
  | [] => [[]]
  | '_' :: '_' :: rest => [] :: segments rest
  | c :: rest =>
      match segments rest with
      | [] => [[c]]
      | s :: ss => (c :: s) :: ss

def words (cs : List Char) : List (List Char) :=
  (cs.splitOn '_').filter (!·.isEmpty)

def camelCase (segment : List Char) : List Char :=
  match words (Text.lower segment) with
  | [] => []
  | w :: ws => w ++ ws.flatMap Text.capitalize

def settingPath? (key : String) : Option String :=
  let names := (segments key.toList).map camelCase
  if names.any List.isEmpty then none
  else some (String.ofList (['.'].intercalate names))

def isPlainNumeral (cs : List Char) : Bool :=
  cs.all fun c => c.isDigit || c == '-' || c == '.'

def parseValue (s : String) : Json :=
  if s = "true" then .bool true
  else if s = "false" then .bool false
  else
    match Numeral.parse? s.toList with
    | some x => if isPlainNumeral s.toList then .num x.number else .str s
    | none =>
        match s.toList with
        | '[' :: _ | '{' :: _ => (Json.parse? s).getD (.str s)
        | _ => .str s

def settingOf? (name : String) : Option (List String) :=
  if name = homeVariable then none
  else
    let cs := name.toList
    if variablePrefix.toList.isPrefixOf cs then
      (settingPath? (String.ofList (cs.drop variablePrefix.length))).map Settings.path
    else none

def settings (env : List (String × String)) : Settings :=
  env.foldl
    (fun base (name, value) =>
      match settingOf? name with
      | none => base
      | some path => Settings.set (.ofJson (parseValue value)) path base)
    []

end ToolGate.Environment
