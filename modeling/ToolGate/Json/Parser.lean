import ToolGate.Json.Token

namespace ToolGate.Json

variable {τ : Type}

inductive Frame (τ : Type) where
  | item (done : List (Json τ))
  | member (done : Named (Json τ)) (name : String)

inductive Expected (τ : Type) where
  | value
  | itemOrEnd
  | nameOrEnd
  | name (done : Named (Json τ))
  | colon (done : Named (Json τ)) (name : String)
  | next (v : Json τ)

structure Parser (τ : Type) where
  expected : Expected τ
  frames : List (Frame τ)

namespace Parser

def start : Parser τ := ⟨.value, []⟩

def stepValue (frames : List (Frame τ)) : Token τ → Option (Parser τ)
  | .scalar v => some ⟨.next v, frames⟩
  | .openArray => some ⟨.itemOrEnd, frames⟩
  | .openObject => some ⟨.nameOrEnd, frames⟩
  | _ => none

def step [Textual τ] (p : Parser τ) (t : Token τ) : Option (Parser τ) :=
  match p.expected, p.frames, t with
  | .value, frames, t => stepValue frames t
  | .itemOrEnd, frames, .closeArray => some ⟨.next (.arr []), frames⟩
  | .itemOrEnd, frames, t => stepValue (.item [] :: frames) t
  | .nameOrEnd, frames, .closeObject => some ⟨.next (.obj []), frames⟩
  | .nameOrEnd, frames, .scalar (.str name) =>
      some ⟨.colon [] (Textual.whole name), frames⟩
  | .name done, frames, .scalar (.str name) =>
      some ⟨.colon done (Textual.whole name), frames⟩
  | .colon done name, frames, .colon => some ⟨.value, .member done name :: frames⟩
  | .next v, .item done :: frames, .comma => some ⟨.value, .item (v :: done) :: frames⟩
  | .next v, .item done :: frames, .closeArray => some ⟨.next (.arr (v :: done).reverse), frames⟩
  | .next v, .member done name :: frames, .comma => some ⟨.name (done.put name v), frames⟩
  | .next v, .member done name :: frames, .closeObject =>
      some ⟨.next (.obj (done.put name v)), frames⟩
  | _, _, _ => none

def finish : Parser τ → Option (Json τ)
  | ⟨.next v, []⟩ => some v
  | _ => none

end Parser

variable [Textual τ]

def ofTokens? (ts : List (Token τ)) : Option (Json τ) :=
  (ts.foldlM Parser.step .start).bind Parser.finish

/-- A half surrogate that is escaped alone stays in a text of units. In one of characters, and in the
name of a member, it is read as the replacement character. -/
def parse? (s : String) : Option (Json τ) :=
  (Token.lex s.toList).bind ofTokens?

end ToolGate.Json
