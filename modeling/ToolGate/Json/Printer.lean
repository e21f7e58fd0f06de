import ToolGate.Json.Token

namespace ToolGate.Json

variable {τ : Type} [Textual τ]

mutual

def tokens : Json τ → List (Token τ) → List (Token τ)
  | .arr items, rest => .openArray :: itemTokens items (.closeArray :: rest)
  | .obj members, rest => .openObject :: memberTokens members (.closeObject :: rest)
  | v, rest => .scalar v :: rest

def itemTokens : List (Json τ) → List (Token τ) → List (Token τ)
  | [], rest => rest
  | [v], rest => tokens v rest
  | v :: vs, rest => tokens v (.comma :: itemTokens vs rest)

def memberTokens : List (String × Json τ) → List (Token τ) → List (Token τ)
  | [], rest => rest
  | [(name, v)], rest => .scalar (.str (Textual.ofString name)) :: .colon :: tokens v rest
  | (name, v) :: vs, rest =>
      .scalar (.str (Textual.ofString name)) :: .colon :: tokens v (.comma :: memberTokens vs rest)

end

def hexChar (n : Nat) : Char :=
  Nat.digitChar n

def unitChars (u : Nat) : List Char :=
  ['\\', 'u', hexChar (u / 0x1000), hexChar (u / 0x100 % 16), hexChar (u / 16 % 16), hexChar (u % 16)]

def escapeChars (c : Char) : List Char :=
  if c = '"' then ['\\', '"']
  else if c = '\\' then ['\\', '\\']
  else if c = '\x08' then ['\\', 'b']
  else if c = '\x0c' then ['\\', 'f']
  else if c = '\n' then ['\\', 'n']
  else if c = '\r' then ['\\', 'r']
  else if c = '\t' then ['\\', 't']
  else if c.toNat < 0x20 then unitChars c.toNat
  else [c]

def pieceChars : Text.Piece → List Char
  | .char c => escapeChars c
  | .half u => unitChars u

def stringChars (s : τ) : List Char :=
  '"' :: (Text.pieces (Textual.units s)).flatMap pieceChars ++ ['"']

def numberChars (x : Number) : List Char :=
  match x with
  | .finite .. => x.chars
  | _ => "null".toList

def scalarChars : Json τ → List Char
  | .bool b => (if b then "true" else "false").toList
  | .num x => numberChars x
  | .str s => stringChars s
  | _ => "null".toList

def Token.chars : Token τ → List Char
  | .openArray => ['[']
  | .closeArray => [']']
  | .openObject => ['{']
  | .closeObject => ['}']
  | .colon => [':']
  | .comma => [',']
  | .scalar v => scalarChars v

def chars (v : Json τ) : List Char :=
  (tokens v []).flatMap Token.chars

def text (v : Json τ) : String :=
  String.ofList v.chars

end ToolGate.Json
