import ToolGate.Label.Integrity
import ToolGate.Label.Confidentiality

namespace ToolGate

structure Label where
  integrity : Integrity
  confidentiality : Confidentiality
deriving DecidableEq

namespace Label

def join (a b : Label) : Label :=
  ⟨a.integrity.join b.integrity, a.confidentiality.join b.confidentiality⟩

def worst : Label := ⟨.untrusted, .all⟩

end Label

end ToolGate
