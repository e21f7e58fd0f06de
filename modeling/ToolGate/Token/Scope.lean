import ToolGate.Text.Blank

namespace ToolGate.Scope

def normalize (scope : List String) : List String :=
  scope.eraseDups

def isWellFormed (scope : List String) : Bool :=
  !scope.isEmpty && scope.all (!Text.allBlank ·)

def isNarrower (child parent : List String) : Bool :=
  let child := normalize child
  !child.isEmpty && child.length < (normalize parent).length && child.all (parent.contains ·)

end ToolGate.Scope
