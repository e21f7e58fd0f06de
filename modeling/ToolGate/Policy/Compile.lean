import ToolGate.Policy.Rule

namespace ToolGate

open Json (Shape Checked)

structure ArgEntry where
  argument : String
  requires : Option String
  forbids : List String
deriving DecidableEq

structure ToolEntry where
  tool : String
  sideEffect : SideEffect
  authority : List String
  argRules : List ArgEntry
  refusedContexts : List String
  defaultAction : Action
deriving DecidableEq

namespace ToolEntry

def argShape : Shape ArgEntry := fun v => do
  let ms ← Shape.object v
  let argument ← Shape.member "arg" Shape.filled ms
  let requires ← Shape.member "requires_integrity" (Shape.optional Shape.string) ms
  let forbids ← Shape.member "forbids_confidentiality"
    (Shape.orElse [] (Shape.list Shape.filled)) ms
  Shape.only ["arg", "requires_integrity", "forbids_confidentiality"] ms
  return ⟨argument, requires, forbids⟩

def contextShape : Shape (List String) := fun v => do
  let ms ← Shape.object v
  let refused ← Shape.member "deny_if_pc_integrity_contains"
    (Shape.orElse [] (Shape.list Shape.string)) ms
  Shape.only ["deny_if_pc_integrity_contains"] ms
  return refused

def sideEffects : Named SideEffect :=
  [("ExternalRead", .externalRead), ("ExternalWrite", .externalWrite)]

def actions : Named Action :=
  [("Allow", .allow), ("Deny", .deny), ("RequireConfirmation", .requireConfirmation),
    ("RequireDraft", .requireDraft)]

def shape : Shape ToolEntry := fun v => do
  let ms ← Shape.object v
  let tool ← Shape.member "tool" Shape.filled ms
  let sideEffect ← Shape.member "side_effect_class" (Shape.choice sideEffects) ms
  let authority ← Shape.member "required_authority"
    (Shape.orElse [] (Shape.list Shape.string)) ms
  let argRules ← Shape.member "arg_rules" (Shape.orElse [] (Shape.list argShape)) ms
  let refused ← Shape.member "context_rules" (Shape.orElse [] contextShape) ms
  let defaultAction ← Shape.member "default_decision" (Shape.choice actions) ms
  Shape.only
    ["tool", "side_effect_class", "required_authority", "arg_rules", "context_rules",
      "default_decision"] ms
  return ⟨tool, sideEffect, authority, argRules, refused, defaultAction⟩

def compileArg (a : ArgEntry) : Except RuleFault ArgRule :=
  let forbids := a.forbids.eraseDups
  match a.requires with
  | none => .ok ⟨a.argument, none, forbids⟩
  | some text =>
      match Integrity.parse? text with
      | some i => .ok ⟨a.argument, some i, forbids⟩
      | none => .error (.unknownIntegrity a.argument text)

def compileArgs (seen : List String) : List ArgEntry → Except RuleFault (List ArgRule)
  | [] => .ok []
  | a :: rest =>
      if a.argument ∈ seen then .error (.repeatedArgument a.argument)
      else do
        let r ← compileArg a
        let rs ← compileArgs (a.argument :: seen) rest
        return r :: rs

def compileContexts : List String → Except RuleFault (List Integrity)
  | [] => .ok []
  | text :: rest =>
      match Integrity.parse? text with
      | none => .error (.unknownContext text)
      | some i => do
          let is ← compileContexts rest
          return i :: is

def compile (name : String) (e : ToolEntry) : Except RuleFault ToolRule := do
  if e.authority.any Text.allBlank then throw .blankResource
  let argRules ← compileArgs [] e.argRules
  let refused ← compileContexts e.refusedContexts
  return ⟨name, e.sideEffect, e.authority.eraseDups, argRules, refused, e.defaultAction⟩

end ToolEntry

def RuleEntry.ofJson (name : String) (v : Json) : RuleEntry :=
  match ToolEntry.shape (some v) with
  | .error issue => .malformed name (.shape issue)
  | .ok e =>
      match e.compile name with
      | .error fault => .malformed name fault
      | .ok r => .rule r

end ToolGate
