import Mathlib.Data.List.Induction
import Mathlib.Data.List.Perm.Basic
import ToolGate.Label.Confidentiality
import ToolGate.Policy.Document
import ToolGate.Proofs.Json.Shapes
import ToolGate.Proofs.Named

namespace ToolGate.PolicyDocument

variable {tools : List (String × Json)} {entries : List Json} {name : String} {v : Json}

def Names (v : Json) (name : String) : Prop :=
  v.member? "tool" = some (.str name) ∧ name ≠ ""

theorem toolName?_eq_some : toolName? v = some name ↔ Names v name := by
  cases htext : (v.member? "tool").bind Json.text? with
  | none =>
      rw [toolName?, htext, Names]
      refine ⟨nofun, fun ⟨htool, _⟩ => ?_⟩
      rw [htool] at htext
      cases htext
  | some text =>
      have hmember : v.member? "tool" = some (.str text) := by
        obtain ⟨w, hw, hread⟩ := Option.bind_eq_some_iff.1 htext
        cases w <;> cases hread
        exact hw
      by_cases hempty : text = ""
      · rw [toolName?, htext, Names, hmember, hempty]
        simp [eq_comm]
      · have hname : toolName? v = some text := by
          rw [toolName?, htext]
          split
          · rename_i heq
            exact absurd (Option.some.inj heq) hempty
          · rfl
        simp only [hname, Names, hmember, Option.some.injEq, Json.str.injEq]
        exact ⟨fun h => ⟨h, h ▸ hempty⟩, And.left⟩

def entriesOf (name : String) (entries : List Json) : List Json :=
  entries.filter (toolName? · = some name)

def verdict (name : String) : List Json → Option RuleEntry
  | [] => none
  | [v] => some (.ofJson name v)
  | _ => some (.malformed name .repeatedTool)

namespace Listing

structure Lists (l : Listing) (tools : List (String × Json)) : Prop where
  names : l.rules.names = (tools.map Prod.fst).eraseDups
  first : ∀ name, l.rules.get? name = (Named.get? name tools).map (.ofJson name)
  repeated : ∀ name, name ∈ l.repeated ↔ 2 ≤ (tools.map Prod.fst).count name

theorem get?_concat (tools : List (String × Json)) (name : String) (v : Json) (other : String) :
    Named.get? other (tools ++ [(name, v)]) =
      (Named.get? other tools).or (if name = other then some v else none) :=
  Named.get?_append _ _ _

theorem count_concat (tools : List (String × Json)) (name : String) (v : Json) (other : String) :
    ((tools ++ [(name, v)]).map Prod.fst).count other =
      (tools.map Prod.fst).count other + if name = other then 1 else 0 := by
  simp [List.count_append, List.count_singleton]

theorem Lists.has_iff {l : Listing} (h : l.Lists tools) (name : String) :
    l.rules.has name ↔ name ∈ tools.map Prod.fst := by
  rw [Named.has, h.first, Option.isSome_map, Named.isSome_get?]
  rfl

theorem Lists.add_again {l : Listing} (h : l.Lists tools) (hlisted : name ∈ tools.map Prod.fst)
    (v : Json) : (l.add (name, v)).Lists (tools ++ [(name, v)]) := by
  have hsome : (Named.get? name tools).isSome := Named.isSome_get?.2 hlisted
  have hpos := List.count_pos_iff.2 hlisted
  rw [Listing.add, if_pos ((h.has_iff name).2 hlisted)]
  refine ⟨?_, fun other => ?_, fun other => ?_⟩
  · rw [List.map_append, List.map_singleton, eraseDups_concat, if_pos hlisted]
    exact h.names
  · rw [get?_concat, h.first]
    split
    · rename_i heq
      subst heq
      rw [Option.or_of_isSome hsome]
    · rw [Option.or_none]
  · rw [count_concat, List.mem_append, List.mem_singleton, h.repeated]
    split
    · rename_i heq
      subst heq
      simp only [or_true, true_iff]
      omega
    · rename_i hne
      simp [Ne.symm hne]

theorem Lists.add_first {l : Listing} (h : l.Lists tools) (hfresh : name ∉ tools.map Prod.fst)
    (v : Json) : (l.add (name, v)).Lists (tools ++ [(name, v)]) := by
  have hnone : Named.get? name tools = none := Named.get?_eq_none.2 hfresh
  have hzero := List.count_eq_zero.2 hfresh
  rw [Listing.add, if_neg fun hstored => hfresh ((h.has_iff name).1 hstored)]
  refine ⟨?_, fun other => ?_, fun other => ?_⟩
  · rw [List.map_append, List.map_singleton, eraseDups_concat, if_neg hfresh, Named.names_put,
      h.names, if_neg]
    rwa [List.mem_eraseDups]
  · rw [get?_concat, Named.get?_put, h.first]
    split
    · rename_i heq
      subst heq
      rw [hnone]
      rfl
    · rw [Option.or_none]
  · rw [count_concat, h.repeated]
    split
    · rename_i heq
      subst heq
      omega
    · rfl

theorem Lists.add {l : Listing} (h : l.Lists tools) (tool : String × Json) :
    (l.add tool).Lists (tools ++ [tool]) := by
  by_cases hlisted : tool.1 ∈ tools.map Prod.fst
  · exact h.add_again hlisted tool.2
  · exact h.add_first hlisted tool.2

theorem lists (tools : List (String × Json)) : Lists (tools.foldl add ⟨[], []⟩) tools := by
  induction tools using List.reverseRecOn with
  | nil => exact ⟨rfl, fun _ => rfl, by simp⟩
  | append_singleton tools tool ih =>
      rw [List.foldl_append]
      exact ih.add tool

theorem get?_put_all (names : List String) (rules : Named RuleEntry) (name : String) :
    (names.foldl (fun rules name => rules.put name (.malformed name .repeatedTool)) rules).get? name =
      if name ∈ names then some (.malformed name .repeatedTool) else rules.get? name := by
  induction names generalizing rules with
  | nil => simp
  | cons other names ih =>
      rw [List.foldl_cons, ih, Named.get?_put]
      by_cases hname : name ∈ names
      · simp [hname]
      · by_cases heq : other = name
        · subst heq
          simp
        · simp [hname, heq, Ne.symm heq]

theorem names_put_all (names : List String) (rules : Named RuleEntry)
    (h : ∀ n ∈ names, n ∈ rules.names) :
    (names.foldl (fun rules name => rules.put name (.malformed name .repeatedTool)) rules).names =
      rules.names := by
  induction names generalizing rules with
  | nil => rfl
  | cons name names ih =>
      obtain ⟨hname, hnames⟩ := List.forall_mem_cons.1 h
      have hsame : (rules.put name (.malformed name .repeatedTool)).names = rules.names := by
        rw [Named.names_put, if_pos hname]
      rw [List.foldl_cons, ih _ (by rwa [hsame]), hsame]

theorem Lists.get?_close {l : Listing} (h : l.Lists tools) (name : String) :
    l.close.get? name = if 2 ≤ (tools.map Prod.fst).count name
      then some (.malformed name .repeatedTool)
      else (Named.get? name tools).map (.ofJson name) := by
  rw [close, get?_put_all, h.first]
  exact ite_congr (propext (h.repeated name)) (fun _ => rfl) fun _ => rfl

theorem Lists.names_close {l : Listing} (h : l.Lists tools) :
    l.close.names = (tools.map Prod.fst).eraseDups := by
  rw [close, names_put_all, h.names]
  intro name hname
  rw [h.names, List.mem_eraseDups]
  exact List.count_pos_iff.1 (Nat.lt_of_lt_of_le Nat.two_pos ((h.repeated name).1 hname))

end Listing

def WithNames (entries : List Json) (tools : List (String × Json)) : Prop :=
  List.Forall₂ (fun v t => toolName? v = some t.1 ∧ t.2 = v) entries tools

theorem nameTools_ok {index : Nat} :
    nameTools index entries = .ok tools ↔ WithNames entries tools := by
  induction entries generalizing index tools with
  | nil => cases tools <;> simp [nameTools, WithNames]
  | cons v entries ih =>
      rw [nameTools]
      cases hname : toolName? v with
      | none => cases tools <;> simp [WithNames, hname]
      | some name =>
          simp only [bind_ok, pure_ok, ih]
          constructor
          · rintro ⟨rest, hrest, rfl⟩
            exact .cons ⟨hname, rfl⟩ hrest
          · rintro (_ | ⟨⟨hfirst, rfl⟩, hrest⟩)
            rename_i t rest
            obtain ⟨other, w⟩ := t
            cases hname.symm.trans hfirst
            exact ⟨rest, hrest, rfl⟩

theorem nameTools_error (index : Nat) : (∃ fault, nameTools index entries = .error fault) ↔
    ∃ v ∈ entries, toolName? v = none := by
  induction entries generalizing index with
  | nil => simp [nameTools]
  | cons v entries ih =>
      rw [nameTools]
      cases hname : toolName? v with
      | none => simp [hname]
      | some name =>
          simp only [List.mem_cons, exists_eq_or_imp, hname, reduceCtorEq, false_or, ← ih (index + 1)]
          cases nameTools (index + 1) entries <;> simp [bind, Except.bind, pure, Except.pure]

namespace WithNames

theorem names (h : WithNames entries tools) :
    tools.map Prod.fst = entries.filterMap toolName? := by
  induction h with
  | nil => rfl
  | cons hv _ ih => rw [List.map_cons, List.filterMap_cons_some hv.1, ih]

theorem get? (h : WithNames entries tools) (name : String) :
    Named.get? name tools = (entriesOf name entries).head? := by
  induction h with
  | nil => rfl
  | @cons v t entries tools hv _ ih =>
      obtain ⟨k, w⟩ := t
      obtain ⟨hname, rfl⟩ := hv
      rw [Named.get?, entriesOf, List.filter_cons, hname]
      by_cases hk : k = name
      · simp [hk]
      · rw [if_neg hk, if_neg (by simpa using hk)]
        exact ih

theorem count (h : WithNames entries tools) (name : String) :
    (tools.map Prod.fst).count name = (entriesOf name entries).length := by
  induction h with
  | nil => rfl
  | @cons v t entries tools hv _ ih =>
      rw [List.map_cons, List.count_cons, ih, entriesOf, entriesOf, List.filter_cons, hv.1]
      by_cases hk : t.1 = name <;> simp [hk]

end WithNames

theorem get?_compileTools (h : WithNames entries tools) (name : String) :
    (compileTools tools).get? name = verdict name (entriesOf name entries) := by
  rw [compileTools, (Listing.lists tools).get?_close, h.count, h.get?]
  match entriesOf name entries with
  | [] => rfl
  | [v] => rfl
  | v :: w :: rest => rw [if_pos (by simp)]; rfl

theorem names_compileTools (h : WithNames entries tools) :
    (compileTools tools).names = (entries.filterMap toolName?).eraseDups := by
  rw [compileTools, (Listing.lists tools).names_close, h.names]

variable {d : PolicyDocument} {p : Policy}

theorem compile_ok : d.compile = .ok p ↔ ∃ tools, WithNames d.tools tools ∧
    p = ⟨d.name, d.allowsUnlisted, d.strict, d.budgets, compileTools tools⟩ := by
  simp only [compile, bind_ok, pure_ok, nameTools_ok, eq_comm (b := p)]

theorem compile_error : (∃ fault, d.compile = .error fault) ↔
    ∃ v ∈ d.tools, ∀ name, ¬Names v name := by
  have hnone : ∀ v, toolName? v = none ↔ ∀ name, ¬Names v name := fun v => by
    simp only [Option.eq_none_iff_forall_ne_some, ne_eq, toolName?_eq_some]
  simp only [← hnone, ← nameTools_error 0, compile]
  cases nameTools 0 d.tools <;> simp [bind, Except.bind, pure, Except.pure]

theorem foreignVersion?_of_shape (h : shape (some v) = .ok d) : foreignVersion? v = none := by
  simp only [shape, bind_ok, Json.Shape.member_ok, Json.Shape.object_ok, Option.some.injEq] at h
  obtain ⟨ms, rfl, _, hone, -⟩ := h
  have hversion : (Json.obj ms).member? "schema_version" = some (.num 1) :=
    Json.Shape.of_one_ok hone
  simp only [foreignVersion?, hversion, if_true]

theorem ofJson_of_shape (h : shape (some v) = .ok d) : Policy.ofJson v = d.compile := by
  rw [Policy.ofJson, foreignVersion?_of_shape h, h]

theorem get?_rules (h : d.compile = .ok p) (name : String) :
    p.rules.get? name = verdict name (entriesOf name d.tools) := by
  obtain ⟨tools, hnamed, rfl⟩ := compile_ok.1 h
  exact get?_compileTools hnamed name

theorem names_rules (h : d.compile = .ok p) :
    p.rules.names = (d.tools.filterMap toolName?).eraseDups := by
  obtain ⟨tools, hnamed, rfl⟩ := compile_ok.1 h
  exact names_compileTools hnamed

theorem nodup_rules (h : d.compile = .ok p) : p.rules.names.Nodup :=
  names_rules h ▸ nodup_eraseDups _

theorem verdict_perm {others : List Json} (h : entries.Perm others) (name : String) :
    verdict name entries = verdict name others := by
  match entries, others, h with
  | [], others, h => rw [List.nil_perm.1 h]
  | [v], others, h => rw [List.singleton_perm.1 h]
  | _ :: _ :: _, [], h => cases h.length_eq
  | _ :: _ :: _, [_], h => cases h.length_eq
  | _ :: _ :: _, _ :: _ :: _, _ => rfl

theorem compile_perm {entries : List Json} (h : d.compile = .ok p) (hperm : entries.Perm d.tools) :
    ∃ rules, compile { d with tools := entries } = .ok { p with rules := rules } ∧
      rules.Perm p.rules := by
  have hok : ¬∃ fault, compile { d with tools := entries } = .error fault := by
    intro hfault
    obtain ⟨v, hv, hnameless⟩ := compile_error.1 hfault
    obtain ⟨fault, hfault⟩ := compile_error.2 ⟨v, hperm.mem_iff.1 hv, hnameless⟩
    cases h.symm.trans hfault
  cases hcompile : compile { d with tools := entries } with
  | error fault => exact absurd ⟨fault, hcompile⟩ hok
  | ok q =>
      obtain ⟨tools, hnamed, rfl⟩ := compile_ok.1 hcompile
      refine ⟨_, ?_, Named.perm_of_get? (nodup_rules hcompile) (nodup_rules h) fun name => ?_⟩
      · obtain ⟨_, -, rfl⟩ := compile_ok.1 h
        rfl
      · rw [get?_rules hcompile, get?_rules h]
        exact verdict_perm (hperm.filter _) name

structure Tabulates (rules : Named RuleEntry) (entries : List Json) : Prop where
  names : rules.names = (entries.filterMap toolName?).eraseDups
  once : ∀ name v, entriesOf name entries = [v] → rules.get? name = some (.ofJson name v)
  repeated : ∀ name, 2 ≤ (entriesOf name entries).length →
    rules.get? name = some (.malformed name .repeatedTool)

theorem compile_tabulates (h : d.compile = .ok p) : Tabulates p.rules d.tools where
  names := names_rules h
  once name v hv := by rw [get?_rules h, hv, verdict]
  repeated name htwo := by
    rw [get?_rules h]
    match entriesOf name d.tools, htwo with
    | _ :: _ :: _, _ => rfl

theorem tabulates_of_shape (hd : shape (some v) = .ok d) :
    ((∃ fault, Policy.ofJson v = .error fault) ↔ ∃ w ∈ d.tools, ∀ name, ¬Names w name) ∧
    ∀ p, Policy.ofJson v = .ok p →
      Tabulates p.rules d.tools ∧
      (∀ v' entries, shape (some v') = .ok { d with tools := entries } → entries.Perm d.tools →
        ∃ rules, Policy.ofJson v' = .ok { p with rules := rules } ∧ rules.Perm p.rules) ∧
      ∀ v' d' p', shape (some v') = .ok d' → Policy.ofJson v' = .ok p' →
        ∀ name, entriesOf name d'.tools = entriesOf name d.tools →
          p'.rules.get? name = p.rules.get? name := by
  rw [ofJson_of_shape hd]
  refine ⟨compile_error, fun p hp => ⟨compile_tabulates hp, ?_, ?_⟩⟩
  · intro v' entries hd' hperm
    rw [ofJson_of_shape hd']
    exact compile_perm hp hperm
  · intro v' d' p' hd' hp' name hsame
    rw [ofJson_of_shape hd'] at hp'
    rw [get?_rules hp', get?_rules hp, hsame]

namespace Sample

def budgets : Json :=
  .obj
    [("max_values", .num 9), ("max_parents_per_value", .num 3), ("max_closure_steps", .num 7),
      ("max_witness_depth", .num 5)]

def document (tools : List Json) : Json :=
  .obj
    [("schema_version", .num 1), ("policy_name", .str "desk"), ("default_action", .str "Deny"),
      ("strict_mode", .bool true), ("budgets", budgets), ("tools", .arr tools)]

theorem budgetsShape_budgets : budgetsShape (some budgets) = .ok ⟨9, 3, 7, 5⟩ := by
  decide +kernel

theorem shape_document (tools : List Json) :
    shape (some (document tools)) = .ok ⟨"desk", false, true, ⟨9, 3, 7, 5⟩, tools⟩ := by
  simp only [shape, bind_ok, pure_ok, Json.Shape.member_ok]
  exact ⟨_, Json.Shape.object_ok.2 rfl, (), Json.Shape.one_ok, _,
    Json.Shape.filled_ok.2 ⟨rfl, by decide⟩, _, rfl, _, Json.Shape.boolean_ok.2 rfl, _,
    budgetsShape_budgets, _, Json.Shape.array_ok.2 rfl, (), Json.Shape.only_ok (by simp), rfl⟩

def tool (name sideEffect : String) : Json :=
  .obj [("tool", .str name), ("side_effect_class", .str sideEffect),
    ("default_decision", .str "Allow")]

end Sample

theorem tabulates_of_shape_repeated :
    let read := Sample.tool "read" "ExternalRead"
    let send := Sample.tool "send" "ExternalWrite"
    let wipe := Sample.tool "wipe" "Erase"
    ∃ p, Policy.ofJson (Sample.document [send, wipe, send, read]) = .ok p ∧
      p.rules.names = ["send", "wipe", "read"] ∧
      p.rules.get? "send" = some (.malformed "send" .repeatedTool) ∧
      p.rules.get? "wipe" = some (.ofJson "wipe" wipe) ∧
      p.rules.get? "read" = some (.rule ⟨"read", .externalRead, [], [], [], .allow⟩) := by
  intro read send wipe
  obtain ⟨hfault, hpolicy⟩ :=
    tabulates_of_shape (Sample.shape_document [send, wipe, send, read])
  cases hp : Policy.ofJson (Sample.document [send, wipe, send, read]) with
  | error fault =>
      obtain ⟨w, hw, hnameless⟩ := hfault.1 ⟨fault, hp⟩
      have hnamed : ∀ w ∈ [send, wipe, send, read], (toolName? w).isSome := by decide
      obtain ⟨name, hname⟩ := Option.isSome_iff_exists.1 (hnamed w hw)
      exact absurd (toolName?_eq_some.1 hname) (hnameless name)
  | ok p =>
      obtain ⟨htable, -⟩ := hpolicy p hp
      refine ⟨p, rfl, htable.names.trans (by decide), htable.repeated _ (by decide),
        htable.once _ _ rfl, (htable.once _ read rfl).trans (by decide)⟩

end ToolGate.PolicyDocument
