import ToolGate.Json.Basic
import ToolGate.Number.Numeral

namespace ToolGate.Json

variable {τ : Type}

inductive Token (τ : Type) where
  | openArray
  | closeArray
  | openObject
  | closeObject
  | colon
  | comma
  | scalar (v : Json τ)

namespace Token

def blank (c : Char) : Bool :=
  c == ' ' || c == '\t' || c == '\n' || c == '\r'

def marks : List Char := ['[', ']', '{', '}', ':', ',']

def mark? : Char → Option (Token τ)
  | '[' => some openArray
  | ']' => some closeArray
  | '{' => some openObject
  | '}' => some closeObject
  | ':' => some colon
  | ',' => some comma
  | _ => none

def word? (cs : List Char) : Option (Token τ) :=
  if cs = "null".toList then some (scalar .null)
  else if cs = "true".toList then some (scalar (.bool true))
  else if cs = "false".toList then some (scalar (.bool false))
  else match Numeral.parse? cs with
    | some x => if x.isCanonical then some (scalar (.num x.number)) else none
    | none => none

def escape? : Char → Option Char
  | '"' => some '"'
  | '\\' => some '\\'
  | '/' => some '/'
  | 'b' => some '\x08'
  | 'f' => some '\x0c'
  | 'n' => some '\n'
  | 'r' => some '\r'
  | 't' => some '\t'
  | _ => none

def hexDigit? (c : Char) : Option Nat :=
  if c.isDigit then some (c.toNat - '0'.toNat)
  else if 'a' ≤ c ∧ c ≤ 'f' then some (c.toNat - 'a'.toNat + 10)
  else if 'A' ≤ c ∧ c ≤ 'F' then some (c.toNat - 'A'.toNat + 10)
  else none

inductive Reading where
  | between
  | word (cs : List Char)
  | string (units : List Nat)
  | escape (units : List Nat)
  | code (units : List Nat) (left value : Nat)

structure Lexer (τ : Type) where
  reading : Reading
  done : List (Token τ)

namespace Lexer

def stepBetween (done : List (Token τ)) (c : Char) : Option (Lexer τ) :=
  if blank c then some ⟨.between, done⟩
  else if c = '"' then some ⟨.string [], done⟩
  else match mark? c with
    | some t => some ⟨.between, t :: done⟩
    | none => some ⟨.word [c], done⟩

def endsWord (c : Char) : Bool :=
  blank c || c == '"' || marks.contains c

def pushChar (units : List Nat) (c : Char) : List Nat :=
  (Text.charUnits c).reverse ++ units

def step [Textual τ] (l : Lexer τ) (c : Char) : Option (Lexer τ) :=
  match l.reading with
  | .between => stepBetween l.done c
  | .word cs =>
      if endsWord c then
        match word? cs.reverse with
        | some t => stepBetween (t :: l.done) c
        | none => none
      else some ⟨.word (c :: cs), l.done⟩
  | .string units =>
      if c = '"' then some ⟨.between, scalar (.str (Textual.ofUnits units.reverse)) :: l.done⟩
      else if c = '\\' then some ⟨.escape units, l.done⟩
      else if c.toNat < 0x20 then none
      else some ⟨.string (pushChar units c), l.done⟩
  | .escape units =>
      if c = 'u' then some ⟨.code units 3 0, l.done⟩
      else (escape? c).map fun d => ⟨.string (pushChar units d), l.done⟩
  | .code units left value =>
      match hexDigit? c with
      | none => none
      | some d =>
          match left with
          | 0 => some ⟨.string ((value * 16 + d) :: units), l.done⟩
          | left + 1 => some ⟨.code units left (value * 16 + d), l.done⟩

def finish (l : Lexer τ) : Option (List (Token τ)) :=
  match l.reading with
  | .between => some l.done.reverse
  | .word cs => (word? cs.reverse).map fun t => (t :: l.done).reverse
  | _ => none

end Lexer

def lex [Textual τ] (cs : List Char) : Option (List (Token τ)) :=
  (cs.foldlM Lexer.step ⟨.between, []⟩).bind Lexer.finish

end Token

end ToolGate.Json
