import ToolGate.Label.Confidentiality
import ToolGate.Policy.Compile
import ToolGate.Proofs.Json.Shapes

namespace ToolGate

open Json (Shape)

def StatedOr {α : Type} (default : α) (states : Json → α → Prop) (v : Option Json) (a : α) : Prop :=
  v = none ∧ a = default ∨ ∃ w, v = some w ∧ states w a

def IsTexts (w : Json) (texts : List String) : Prop :=
  w = .arr (texts.map .str)

def IsFilledTexts (w : Json) (texts : List String) : Prop :=
  IsTexts w texts ∧ "" ∉ texts

namespace ArgEntry

structure Stated (ms : Named Json) (a : ArgEntry) : Prop where
  argument : ms.get? "arg" = some (.str a.argument) ∧ a.argument ≠ ""
  requires : ms.get? "requires_integrity" = a.requires.map .str
  forbids : StatedOr [] IsFilledTexts (ms.get? "forbids_confidentiality") a.forbids
  others : ∀ m ∈ ms, m.1 ∈ ["arg", "requires_integrity", "forbids_confidentiality"]

def StatedBy (w : Json) (a : ArgEntry) : Prop :=
  ∃ ms, w = .obj ms ∧ a.Stated ms

end ArgEntry

namespace ToolEntry

def IsArgRules (w : Json) (args : List ArgEntry) : Prop :=
  ∃ ws, w = .arr ws ∧ List.Forall₂ ArgEntry.StatedBy ws args

def IsContexts (w : Json) (refused : List String) : Prop :=
  ∃ ms : Named Json, w = .obj ms ∧
    StatedOr [] IsTexts (ms.get? "deny_if_pc_integrity_contains") refused ∧
    ∀ m ∈ ms, m.1 ∈ ["deny_if_pc_integrity_contains"]

structure Stated (ms : Named Json) (e : ToolEntry) : Prop where
  tool : ms.get? "tool" = some (.str e.tool) ∧ e.tool ≠ ""
  sideEffect : ∃ text, ms.get? "side_effect_class" = some (.str text) ∧
    sideEffects.get? text = some e.sideEffect
  authority : StatedOr [] IsTexts (ms.get? "required_authority") e.authority
  argRules : StatedOr [] IsArgRules (ms.get? "arg_rules") e.argRules
  contexts : StatedOr [] IsContexts (ms.get? "context_rules") e.refusedContexts
  defaultAction : ∃ text, ms.get? "default_decision" = some (.str text) ∧
    actions.get? text = some e.defaultAction
  others : ∀ m ∈ ms, m.1 ∈ ["tool", "side_effect_class", "required_authority", "arg_rules",
    "context_rules", "default_decision"]

def StatedBy (w : Json) (e : ToolEntry) : Prop :=
  ∃ ms, w = .obj ms ∧ e.Stated ms

section Shapes

variable {v : Option Json} {w : Json} {texts : List String}

theorem stated_or {α : Type} {default a : α} {shape : Shape α} {states : Json → α → Prop}
    (h : ∀ w a, shape (some w) = .ok a ↔ states w a) :
    Shape.orElse default shape v = .ok a ↔ StatedOr default states v a := by
  simp only [Shape.orElse_ok, h, StatedOr]

theorem texts_ok : Shape.list Shape.string (some w) = .ok texts ↔ IsTexts w texts := by
  rw [Shape.strings_ok, Option.some_inj, IsTexts]

theorem filledTexts_ok : Shape.list Shape.filled (some w) = .ok texts ↔ IsFilledTexts w texts := by
  rw [Shape.filledStrings_ok, Option.some_inj, IsFilledTexts, IsTexts]

theorem optionalText_ok {text? : Option String} :
    Shape.optional Shape.string v = .ok text? ↔ v = text?.map .str := by
  simp only [Shape.optional_ok, Shape.string_ok, Option.some.injEq]
  cases text? <;> simp

theorem argShape_ok {a : ArgEntry} : argShape (some w) = .ok a ↔ a.StatedBy w := by
  simp only [argShape, bind_ok, pure_ok, Shape.member_ok, Shape.object_ok, Shape.filled_ok,
    optionalText_ok, stated_or fun _ _ => filledTexts_ok, Option.some.injEq, ArgEntry.StatedBy]
  constructor
  · rintro ⟨ms, hv, argument, hargument, requires, hrequires, forbids, hforbids, u, hothers, rfl⟩
    exact ⟨ms, hv, hargument, hrequires, hforbids, Shape.only_iff.1 hothers⟩
  · rintro ⟨ms, hv, hargument, hrequires, hforbids, hothers⟩
    exact ⟨ms, hv, _, hargument, _, hrequires, _, hforbids, (), Shape.only_iff.2 hothers, rfl⟩

theorem argRules_ok {args : List ArgEntry} :
    Shape.list argShape (some w) = .ok args ↔ IsArgRules w args := by
  simp only [Shape.list_ok, argShape_ok, Option.some.injEq, IsArgRules]

theorem contextShape_ok {refused : List String} :
    contextShape (some w) = .ok refused ↔ IsContexts w refused := by
  simp only [contextShape, bind_ok, pure_ok, Shape.member_ok, Shape.object_ok,
    stated_or fun _ _ => texts_ok, Option.some.injEq, IsContexts]
  constructor
  · rintro ⟨ms, hv, texts, htexts, u, hothers, rfl⟩
    exact ⟨ms, hv, htexts, Shape.only_iff.1 hothers⟩
  · rintro ⟨ms, hv, htexts, hothers⟩
    exact ⟨ms, hv, _, htexts, (), Shape.only_iff.2 hothers, rfl⟩

theorem shape_ok {e : ToolEntry} : shape (some w) = .ok e ↔ e.StatedBy w := by
  simp only [shape, bind_ok, pure_ok, Shape.member_ok, Shape.object_ok, Shape.filled_ok,
    Shape.choice_ok, stated_or fun _ _ => texts_ok, stated_or fun _ _ => argRules_ok,
    stated_or fun _ _ => contextShape_ok, Option.some.injEq, StatedBy]
  constructor
  · rintro ⟨ms, hv, tool, htool, sideEffect, hside, authority, hauthority, args, hargs, refused,
      hrefused, action, haction, u, hothers, rfl⟩
    exact ⟨ms, hv, htool, hside, hauthority, hargs, hrefused, haction, Shape.only_iff.1 hothers⟩
  · rintro ⟨ms, hv, htool, hside, hauthority, hargs, hrefused, haction, hothers⟩
    exact ⟨ms, hv, _, htool, _, hside, _, hauthority, _, hargs, _, hrefused, _, haction, (),
      Shape.only_iff.2 hothers, rfl⟩

end Shapes

structure Accepted (e : ToolEntry) : Prop where
  authority : ∀ resource ∈ e.authority, ¬Text.allBlank resource
  distinct : (e.argRules.map ArgEntry.argument).Nodup
  requires : ∀ a ∈ e.argRules, ∀ text, a.requires = some text → ∃ i, Integrity.parse? text = some i
  contexts : ∀ text ∈ e.refusedContexts, ∃ i, Integrity.parse? text = some i

end ToolEntry

structure ArgEntry.Kept (a : ArgEntry) (r : ArgRule) : Prop where
  argument : r.argument = a.argument
  requires : a.requires.map Integrity.parse? = r.requires.map some
  forbids : ∀ tag, tag ∈ r.forbids ↔ tag ∈ a.forbids

namespace ToolEntry

structure Kept (e : ToolEntry) (r : ToolRule) : Prop where
  sideEffect : r.sideEffect = e.sideEffect
  authority : ∀ resource, resource ∈ r.authority ↔ resource ∈ e.authority
  distinct : r.authority.Nodup
  argRules : List.Forall₂ ArgEntry.Kept e.argRules r.argRules
  contexts : List.Forall₂ (fun text i => Integrity.parse? text = some i) e.refusedContexts
    r.refusedContexts
  defaultAction : r.defaultAction = e.defaultAction

section Compiling

variable {e : ToolEntry} {name : String} {r : ToolRule}

theorem exists_forall₂ {α β : Type} {rel : α → β → Prop} {as : List α} :
    (∃ bs, List.Forall₂ rel as bs) ↔ ∀ a ∈ as, ∃ b, rel a b := by
  induction as with
  | nil => simp
  | cons a as ih =>
      rw [List.forall_mem_cons, ← ih]
      constructor
      · rintro ⟨_, hb | ⟨hb, hbs⟩⟩
        exact ⟨⟨_, hb⟩, _, hbs⟩
      · rintro ⟨⟨b, hb⟩, bs, hbs⟩
        exact ⟨b :: bs, .cons hb hbs⟩

theorem compileArg_kept {a : ArgEntry} {r : ArgRule} (h : compileArg a = .ok r) : a.Kept r := by
  have hforbids (tag : String) : tag ∈ a.forbids.eraseDups ↔ tag ∈ a.forbids := List.mem_eraseDups
  unfold compileArg at h
  split at h
  · rename_i hnone
    cases h
    exact ⟨rfl, by rw [hnone]; rfl, hforbids⟩
  · rename_i text hsome
    split at h
    · rename_i i hparse
      cases h
      exact ⟨rfl, by rw [hsome, Option.map_some, hparse]; rfl, hforbids⟩
    · cases h

theorem exists_compileArg {a : ArgEntry} : (∃ r, compileArg a = .ok r) ↔
    ∀ text, a.requires = some text → ∃ i, Integrity.parse? text = some i := by
  unfold compileArg
  cases a.requires with
  | none => simp
  | some text =>
      simp only [Option.some.injEq, forall_eq']
      cases Integrity.parse? text <;> simp

theorem compileArgs_ok {seen : List String} {as : List ArgEntry} {rs : List ArgRule} :
    compileArgs seen as = .ok rs ↔
      (∀ a ∈ as, a.argument ∉ seen) ∧ (as.map ArgEntry.argument).Nodup ∧
        List.Forall₂ (fun a r => compileArg a = .ok r) as rs := by
  induction as generalizing seen rs with
  | nil => cases rs <;> simp [compileArgs]
  | cons a as ih =>
      rw [compileArgs]
      split
      · rename_i hseen
        exact ⟨nofun, fun h => absurd hseen (h.1 a List.mem_cons_self)⟩
      · rename_i hfresh
        rw [List.forall_mem_cons, List.map_cons, List.nodup_cons]
        simp only [bind_ok, pure_ok, ih, List.mem_cons, not_or]
        constructor
        · rintro ⟨r, hr, rest, ⟨hseen, hdistinct, hrest⟩, rfl⟩
          refine ⟨⟨hfresh, fun b hb => (hseen b hb).2⟩, ⟨?_, hdistinct⟩, .cons hr hrest⟩
          intro hmem
          obtain ⟨b, hb, hsame⟩ := List.mem_map.1 hmem
          exact (hseen b hb).1 hsame
        · rintro ⟨⟨-, hseen⟩, ⟨hnew, hdistinct⟩, _ | ⟨hr, hrest⟩⟩
          refine ⟨_, hr, _, ⟨fun b hb => ⟨fun hsame => ?_, hseen b hb⟩, hdistinct, hrest⟩, rfl⟩
          exact hnew (List.mem_map.2 ⟨b, hb, hsame⟩)

theorem compileContexts_ok {texts : List String} {is : List Integrity} :
    compileContexts texts = .ok is ↔
      List.Forall₂ (fun text i => Integrity.parse? text = some i) texts is := by
  induction texts generalizing is with
  | nil => cases is <;> simp [compileContexts]
  | cons text texts ih =>
      rw [compileContexts]
      cases hparse : Integrity.parse? text with
      | none => cases is <;> simp [hparse]
      | some i =>
          simp only [bind_ok, pure_ok, ih]
          constructor
          · rintro ⟨rest, hrest, rfl⟩
            exact .cons hparse hrest
          · rintro (_ | ⟨hfirst, hrest⟩)
            cases hparse.symm.trans hfirst
            exact ⟨_, hrest, rfl⟩

theorem compile_ok : e.compile name = .ok r ↔
    (∀ resource ∈ e.authority, ¬Text.allBlank resource) ∧
      ∃ argRules, compileArgs [] e.argRules = .ok argRules ∧
        ∃ refused, compileContexts e.refusedContexts = .ok refused ∧
          r = ⟨name, e.sideEffect, e.authority.eraseDups, argRules, refused, e.defaultAction⟩ := by
  rw [compile, guard_ok]
  simp only [bind_ok, pure_ok, List.any_eq_true, not_exists, not_and, eq_comm (b := r)]

theorem exists_compile : (∃ r, e.compile name = .ok r) ↔ e.Accepted := by
  have hargs : (∃ argRules, compileArgs [] e.argRules = .ok argRules) ↔
      (e.argRules.map ArgEntry.argument).Nodup ∧
        ∀ a ∈ e.argRules, ∀ text, a.requires = some text → ∃ i, Integrity.parse? text = some i := by
    simp only [compileArgs_ok, List.not_mem_nil, not_false_iff, implies_true, true_and,
      exists_and_left, exists_forall₂, exists_compileArg]
  have hcontexts : (∃ refused, compileContexts e.refusedContexts = .ok refused) ↔
      ∀ text ∈ e.refusedContexts, ∃ i, Integrity.parse? text = some i := by
    simp only [compileContexts_ok, exists_forall₂]
  constructor
  · rintro ⟨r, hr⟩
    obtain ⟨hauthority, argRules, hr, refused, hrefused, -⟩ := compile_ok.1 hr
    obtain ⟨hdistinct, hrequires⟩ := hargs.1 ⟨argRules, hr⟩
    exact ⟨hauthority, hdistinct, hrequires, hcontexts.1 ⟨refused, hrefused⟩⟩
  · rintro ⟨hauthority, hdistinct, hrequires, hparsed⟩
    obtain ⟨argRules, hr⟩ := hargs.2 ⟨hdistinct, hrequires⟩
    obtain ⟨refused, hrefused⟩ := hcontexts.2 hparsed
    exact ⟨_, compile_ok.2 ⟨hauthority, argRules, hr, refused, hrefused, rfl⟩⟩

theorem compile_kept (h : e.compile name = .ok r) : r.tool = name ∧ e.Kept r := by
  obtain ⟨-, argRules, hargs, refused, hrefused, rfl⟩ := compile_ok.1 h
  obtain ⟨-, -, hcompiled⟩ := compileArgs_ok.1 hargs
  exact ⟨rfl, rfl, fun resource => List.mem_eraseDups, nodup_eraseDups _,
    hcompiled.imp fun _ _ => compileArg_kept, compileContexts_ok.1 hrefused, rfl⟩

end Compiling

end ToolEntry

namespace RuleEntry

variable {name : String} {v : Json} {e : ToolEntry}

theorem ofJson_of_stated (h : e.StatedBy v) {r : ToolRule} :
    ofJson name v = .rule r ↔ e.compile name = .ok r := by
  rw [ofJson, ToolEntry.shape_ok.2 h]
  dsimp only
  cases e.compile name <;> simp

theorem ofJson_correct (name : String) (v : Json) :
    (∀ e : ToolEntry, e.StatedBy v →
      ((∃ r, ofJson name v = .rule r) ↔ e.Accepted) ∧
        ∀ r, ofJson name v = .rule r → r.tool = name ∧ e.Kept r) ∧
    ((∀ e : ToolEntry, e.StatedBy v → ¬e.Accepted) →
      ∃ fault, ofJson name v = .malformed name fault) := by
  refine ⟨fun e he => ?_, fun hnone => ?_⟩
  · simp only [ofJson_of_stated he]
    exact ⟨ToolEntry.exists_compile, fun r => ToolEntry.compile_kept⟩
  · cases hshape : ToolEntry.shape (some v) with
    | error issue => exact ⟨_, by rw [ofJson, hshape]⟩
    | ok e =>
        cases hcompile : e.compile name with
        | error fault => exact ⟨fault, by rw [ofJson, hshape]; dsimp only; rw [hcompile]⟩
        | ok r =>
            have haccepted := ToolEntry.exists_compile.1 ⟨r, hcompile⟩
            exact absurd haccepted (hnone e (ToolEntry.shape_ok.1 hshape))

namespace Notice

def argument (requires : String) : Json :=
  .obj [("arg", .str "to"), ("requires_integrity", .str requires),
    ("forbids_confidentiality", .arr [.str "hr", .str "hr"])]

def posting (arguments : List Json) : Json :=
  .obj
    [("tool", .str "post"), ("side_effect_class", .str "ExternalWrite"),
      ("required_authority", .arr [.str "board", .str "board"]), ("arg_rules", .arr arguments),
      ("context_rules", .obj [("deny_if_pc_integrity_contains", .arr [.str "Untrusted"])]),
      ("default_decision", .str "Allow")]

def entry (arguments : List ArgEntry) : ToolEntry :=
  ⟨"post", .externalWrite, ["board", "board"], arguments, ["Untrusted"], .allow⟩

def read (requires : String) : ArgEntry := ⟨"to", some requires, ["hr", "hr"]⟩

theorem stated_once : (entry [read "Verified(dns)"]).StatedBy (posting [argument "Verified(dns)"]) :=
  ToolEntry.shape_ok.1 (by decide +kernel)

theorem stated_twice : (entry [read "Trusted", read "Trusted"]).StatedBy
    (posting [argument "Trusted", argument "Trusted"]) :=
  ToolEntry.shape_ok.1 (by decide +kernel)

end Notice

open Notice in
theorem ofJson_correct_notice :
    (∃ r, ofJson "post" (posting [argument "Verified(dns)"]) = .rule r ∧
      (entry [read "Verified(dns)"]).Kept r) ∧
    ∃ fault, ofJson "post" (posting [argument "Trusted", argument "Trusted"]) =
      .malformed "post" fault := by
  constructor
  · have hcompile : (entry [read "Verified(dns)"]).compile "post" = .ok ⟨"post", .externalWrite,
        ["board"], [⟨"to", some (.verified "dns"), ["hr"]⟩], [.untrusted], .allow⟩ := by
      decide +kernel
    have haccepted := ToolEntry.exists_compile.1 ⟨_, hcompile⟩
    obtain ⟨hrule, hkept⟩ := (ofJson_correct "post" _).1 _ stated_once
    obtain ⟨r, hr⟩ := hrule.2 haccepted
    exact ⟨r, hr, (hkept r hr).2⟩
  · refine (ofJson_correct "post" _).2 fun e he haccepted => ?_
    cases (ToolEntry.shape_ok.2 stated_twice).symm.trans (ToolEntry.shape_ok.2 he)
    exact absurd haccepted.distinct (by decide)

end RuleEntry

end ToolGate
