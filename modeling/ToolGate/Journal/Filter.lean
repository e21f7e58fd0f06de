import ToolGate.Journal.Entry

namespace ToolGate

structure Filter where
  earliest : Option Instant
  latest : Option Instant
  category : Option Category
  action : Option String
  severity : Option Severity
  execution : Option String
  limit : Option Number

namespace Filter

def all : Filter := ⟨none, none, none, none, none, none, none⟩

def asksFor (wanted : Option String) (actual : Option String) : Bool :=
  wanted.all fun w => w == "" || actual == some w

def admits (f : Filter) (e : Entry) : Bool :=
  f.earliest.all (fun t => !e.instant.before t) &&
    f.latest.all (fun t => !t.before e.instant) &&
    f.category.all (· == e.category) &&
    asksFor f.action (some e.action) &&
    f.severity.all (· == e.severity) &&
    asksFor f.execution e.execution

def limit? (f : Filter) : Option Number :=
  f.limit.bind fun x =>
    match x with
    | .nan | .finite _ 0 _ => none
    | x => some x

end Filter

end ToolGate
