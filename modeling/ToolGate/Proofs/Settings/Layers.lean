import ToolGate.Proofs.Json.Shapes
import ToolGate.Proofs.Settings.Sources

namespace ToolGate

open Json (Shape)

namespace Config

inductive Place where
  | version
  | policyPath
  | snapshotsPath
  | journalEnabled
  | journalPath
  | level
  | defaultSubject
deriving DecidableEq

namespace Place

def path : Place → List String
  | .version => ["version"]
  | .policyPath => ["policy", "path"]
  | .snapshotsPath => ["snapshots", "dir"]
  | .journalEnabled => ["audit", "enabled"]
  | .journalPath => ["audit", "dir"]
  | .level => ["audit", "level"]
  | .defaultSubject => ["evaluation", "defaultSubject"]

def Admits : Place → Option Json → Prop
  | .version, v => v = none ∨ v = some (.num 1)
  | .policyPath, v | .snapshotsPath, v | .journalPath, v => ∃ s, v = some (.str s) ∧ s ≠ ""
  | .journalEnabled, v => v = none ∨ ∃ b, v = some (.bool b)
  | .level, v => v = none ∨ ∃ level : Severity, v = some (.str level.name)
  | .defaultSubject, v => v = none ∨ ∃ s, v = some (.str s) ∧ s ≠ ""

def of (c : Config) : Place → Option Json
  | .version => some (.num 1)
  | .policyPath => some (.str c.policyPath)
  | .snapshotsPath => some (.str c.snapshotsPath)
  | .journalEnabled => some (.bool c.journalEnabled)
  | .journalPath => some (.str c.journalPath)
  | .level => some (.str c.level.name)
  | .defaultSubject => c.defaultSubject.map .str

def inSections : List Place :=
  [.policyPath, .snapshotsPath, .journalEnabled, .journalPath, .level, .defaultSubject]

theorem mem_inSections {p : Place} : p ∈ inSections ↔ p ≠ .version := by
  cases p <;> decide

end Place

def fileLayer (files : Named String) (path : String) : Except ConfigFault Setting :=
  match files.get? path with
  | none => .ok .unset
  | some content => readFile path content

def layers (files : Named String) (h : Home) (named : Option String)
    (env : List (String × String)) (overrides : Setting) : Except ConfigFault (List Setting) := do
  let file ← fileLayer files (named.getD h.config)
  let besideIt ← fileLayer files (localFile h named)
  return [defaults h, file, besideIt, .plain (Environment.settings env), overrides]

def stack (ls : List Setting) : Setting :=
  ls.foldl Setting.merge .unset

def chosen (ls : List Setting) (place : List String) : Option Setting :=
  ls.reverse.findSome? (Setting.held? place)

def value (ls : List Setting) (p : Place) : Option Json :=
  (chosen ls p.path).bind Setting.json?

def sections : List String := ["policy", "snapshots", "audit", "evaluation"]

/-- A layer is missing or a group. In it each section is missing or a group, and none of the settings
in a section is a group. -/
structure Sectioned (l : Setting) : Prop where
  group : l ≠ .unset → l.isGroup
  sections : ∀ name ∈ sections, ∀ s, l.held? [name] = some s → s.isGroup
  plain : ∀ p : Place, p ≠ .version → ∀ s, l.held? p.path = some s → ¬s.isGroup

theorem sectioned_iff {l : Setting} : Sectioned l ↔
    (l.held? []).all Setting.isGroup ∧
      (∀ name ∈ sections, (l.held? [name]).all Setting.isGroup) ∧
      ∀ p ∈ Place.inSections, (l.held? p.path).all (!·.isGroup) := by
  simp only [Place.mem_inSections, Option.all_eq_true, Bool.not_eq_true', ← Bool.not_eq_true]
  constructor
  · rintro ⟨hgroup, hsections, hplain⟩
    refine ⟨fun s hs => ?_, hsections, hplain⟩
    cases l with
    | unset => cases hs
    | _ =>
        cases hs
        exact hgroup nofun
  · rintro ⟨hgroup, hsections, hplain⟩
    exact ⟨fun hset => hgroup l (Setting.held?_root hset), hsections, hplain⟩

instance (l : Setting) : Decidable (Sectioned l) :=
  decidable_of_iff _ sectioned_iff.symm

def Unbased (l : Setting) : Prop :=
  ∀ s, l.held? ["evaluation"] = some s → Json.baseName ∉ s.members.names

instance (l : Setting) : Decidable (Unbased l) :=
  decidable_of_iff ((l.held? ["evaluation"]).all fun s => !s.members.names.contains Json.baseName)
    (by simp [Unbased, Option.all_eq_true])

section Loading

variable {files : Named String} {h : Home} {named : Option String} {env : List (String × String)}
  {overrides : Setting} {ls : List Setting}

theorem addFile_eq (files : Named String) (path : String) (base : Setting) :
    addFile files path base = (fileLayer files path).map base.merge := by
  unfold addFile fileLayer
  cases files.get? path with
  | none => simp [Except.map, Setting.merge_unset]
  | some content => rfl

theorem sectioned_defaults (h : Home) : Sectioned (defaults h) :=
  of_decide_eq_true rfl

theorem unbased_defaults (h : Home) : Unbased (defaults h) :=
  of_decide_eq_true rfl

theorem merge_defaults (h : Home) : Setting.merge .unset (defaults h) = defaults h := by
  rw [defaults, Setting.plain, Setting.merge, Setting.mergeOne]
  · rfl
  · intro under base h
    cases h

theorem load_eq : load files h named env overrides =
    (layers files h named env overrides).bind fun ls => ofSetting (stack ls) := by
  simp only [load, layers, addFile_eq]
  cases fileLayer files (named.getD h.config) with
  | error fault => rfl
  | ok file =>
      cases fileLayer files (localFile h named) with
      | error fault => rfl
      | ok besideIt =>
          simp [Except.map, bind, Except.bind, pure, Except.pure, stack, merge_defaults]

theorem distinct_fileLayer {path : String} {s : Setting} (h : fileLayer files path = .ok s) :
    s.Distinct := by
  unfold fileLayer at h
  split at h
  · cases h
    exact .unset
  · exact distinct_readFile h

theorem layers_ok (hl : layers files h named env overrides = .ok ls) : ∃ more,
    ls = defaults h :: more ∧ (overrides.Distinct → ∀ l ∈ more, l.Distinct) := by
  simp only [layers, bind_ok, pure_ok] at hl
  obtain ⟨file, hfile, besideIt, hbeside, rfl⟩ := hl
  refine ⟨_, rfl, fun hoverrides => ?_⟩
  simp only [List.forall_mem_cons]
  exact ⟨distinct_fileLayer hfile, distinct_fileLayer hbeside, Environment.distinct_settings env,
    hoverrides, nofun⟩

theorem chosen_concat (ls : List Setting) (l : Setting) (place : List String) :
    chosen (ls ++ [l]) place = (l.held? place).or (chosen ls place) := by
  rw [chosen, List.reverse_append, List.reverse_singleton, List.singleton_append,
    List.findSome?_cons]
  cases l.held? place <;> rfl

theorem stack_concat (ls : List Setting) (l : Setting) :
    stack (ls ++ [l]) = (stack ls).merge l := by
  rw [stack, List.foldl_append]
  rfl

end Loading

section Stacking

variable {ls : List Setting} {l m g s t : Setting} {name key : String}

theorem key_ne_base {p : Place} (h : p.path = [name, key]) : key ≠ Json.baseName := by
  rintro rfl
  cases p <;> simp [Place.path, Json.baseName] at h

theorem ne_base_of_mem_sections (h : name ∈ sections) : name ≠ Json.baseName := by
  rintro rfl
  simp [sections, Json.baseName] at h

theorem held?_pair (l : Setting) (name key : String) :
    l.held? [name, key] = (l.held? [name]).bind (Setting.held? [key]) := by
  rw [Setting.held?_cons, Setting.held?_cons]
  cases Named.get? name l.members with
  | none => rfl
  | some s => cases s <;> rfl

theorem get?_merge_key (hg : g.isGroup) (hs : s.isGroup) (hnames : s.members.names.Nodup)
    (hkey : key ≠ Json.baseName) (hplain : ∀ t, s.held? [key] = some t → ¬t.isGroup) :
    Named.get? key (g.merge s).members = (s.held? [key]).or (Named.get? key g.members) := by
  rw [Setting.get?_merge hg hs hnames fun heq => absurd heq hkey, Setting.bind_mergeOne]
  cases hheld : s.held? [key] with
  | none => rfl
  | some t =>
      have hset := Setting.held?_ne_unset hheld
      rw [Option.bind_some,
        Setting.mergeOne_replaces hset fun hgroup => absurd hgroup (hplain t hheld)]

theorem get?_merge_top (hm : m.isGroup) (hl : l ≠ .unset → l.isGroup) (hdistinct : l.Distinct)
    (hname : name ≠ Json.baseName) (hg : Named.get? name m.members = some g) :
    Named.get? name (m.merge l).members =
      some (((l.held? [name]).bind (Setting.mergeOne (some g))).getD g) := by
  by_cases hmissing : l = .unset
  · subst hmissing
    rw [Setting.merge_unset]
    exact hg
  · rw [Setting.get?_merge hm (hl hmissing) hdistinct.nodup fun heq => absurd heq hname, hg,
      Setting.under?_of_get? hg, Setting.bind_mergeOne]
    cases hheld : l.held? [name] with
    | none => rfl
    | some s =>
        obtain ⟨v, hv, -⟩ := Setting.exists_mergeOne (Setting.held?_ne_unset hheld) (some g)
        rw [Option.bind_some, hv]
        rfl

structure Section (ls : List Setting) (name : String) (g : Setting) : Prop where
  group : g.isGroup
  keys : ∀ p : Place, ∀ key, p.path = [name, key] →
    Named.get? key g.members = chosen ls [name, key]
  based : name = "evaluation" → ∃ ms, g = .group ms .unset

structure Stacked (ls : List Setting) (m : Setting) : Prop where
  group : m.isGroup
  version : ∃ v w, Named.get? "version" m.members = some v ∧ chosen ls ["version"] = some w ∧
    (v = w ∨ v.isGroup ∧ w.isGroup)
  sections : ∀ name ∈ sections, ∃ g, Named.get? name m.members = some g ∧ Section ls name g

theorem stacked_defaults (h : Home) : Stacked [defaults h] (defaults h) := by
  refine ⟨rfl, ⟨_, _, rfl, rfl, .inl rfl⟩, fun name hname => ?_⟩
  simp only [sections, List.mem_cons, List.not_mem_nil, or_false] at hname
  rcases hname with rfl | rfl | rfl | rfl
  all_goals
    refine ⟨_, rfl, rfl, fun p key hp => ?_, fun _ => ⟨_, rfl⟩⟩
    cases p <;> simp only [Place.path, List.cons.injEq, String.reduceEq, true_and, false_and,
      reduceCtorEq, and_true, and_false] at hp
    all_goals
      subst hp
      rfl

theorem Section.merge (hg : Section ls name g) (hl : Sectioned l) (hdistinct : l.Distinct)
    (hbased : Unbased l) (hname : name ∈ Config.sections) :
    Section (ls ++ [l]) name (((l.held? [name]).bind (Setting.mergeOne (some g))).getD g) := by
  cases hheld : l.held? [name] with
  | none =>
      refine ⟨hg.group, fun p key hp => ?_, hg.based⟩
      rw [chosen_concat, held?_pair, hheld]
      exact hg.keys p key hp
  | some s =>
      have hs := hl.sections name hname s hheld
      have hmember := hdistinct.member (Setting.held?_singleton.1 hheld).1
      rw [Option.bind_some, Setting.mergeOne_groups hg.group hs]
      refine ⟨Setting.isGroup_merge hg.group hs, fun p key hp => ?_, fun hevaluation => ?_⟩
      · have hkey : l.held? [name, key] = s.held? [key] := by rw [held?_pair, hheld, Option.bind_some]
        have hplain (t : Setting) (ht : s.held? [key] = some t) : ¬t.isGroup := by
          refine hl.plain p ?_ t (by rw [hp, hkey, ht])
          rintro rfl
          cases hp
        rw [chosen_concat, hkey, ← hg.keys p key hp]
        exact get?_merge_key hg.group hs hmember.nodup (key_ne_base hp) hplain
      · exact Setting.exists_merge hg.group hs (hbased s (hevaluation ▸ hheld))

theorem Stacked.merge (hm : Stacked ls m) (hl : Sectioned l) (hdistinct : l.Distinct)
    (hbased : Unbased l) : Stacked (ls ++ [l]) (m.merge l) := by
  have htop {name : String} {g : Setting} (hname : name ≠ Json.baseName)
      (hg : Named.get? name m.members = some g) :=
    get?_merge_top hm.group hl.group hdistinct hname hg
  refine ⟨?_, ?_, fun name hname => ?_⟩
  · by_cases hmissing : l = .unset
    · subst hmissing
      rw [Setting.merge_unset]
      exact hm.group
    · exact Setting.isGroup_merge hm.group (hl.group hmissing)
  · obtain ⟨v, w, hv, hw, hsame⟩ := hm.version
    have hmerged := htop (by decide) hv
    rw [chosen_concat]
    cases hheld : l.held? ["version"] with
    | none =>
        rw [hheld] at hmerged
        exact ⟨v, w, hmerged, hw, hsame⟩
    | some s =>
        have hset := Setting.held?_ne_unset hheld
        rw [hheld, Option.bind_some] at hmerged
        refine ⟨_, s, hmerged, rfl, ?_⟩
        by_cases hgroups : s.isGroup ∧ v.isGroup
        · obtain ⟨hs, hv⟩ := hgroups
          rw [Setting.mergeOne_groups hv hs]
          exact .inr ⟨Setting.isGroup_merge hv hs, hs⟩
        · rw [Setting.mergeOne_replaces hset]
          · exact .inl rfl
          · intro hs t heq ht
            cases heq
            exact hgroups ⟨hs, ht⟩
  · obtain ⟨g, hg, hsection⟩ := hm.sections name hname
    exact ⟨_, htop (ne_base_of_mem_sections hname) hg, hsection.merge hl hdistinct hbased hname⟩

theorem stacked_stack (h : Home) {more : List Setting} (hmore : ∀ l ∈ more, Sectioned l)
    (hdistinct : ∀ l ∈ more, l.Distinct) (hbased : ∀ l ∈ more, Unbased l) :
    Stacked (defaults h :: more) (stack (defaults h :: more)) := by
  induction more using List.reverseRecOn with
  | nil =>
      rw [stack, List.foldl_cons, List.foldl_nil, merge_defaults]
      exact stacked_defaults h
  | append_singleton more l ih =>
      simp only [List.forall_mem_append, List.forall_mem_singleton] at hmore hdistinct hbased
      rw [← List.cons_append, stack_concat]
      exact (ih hmore.1 hdistinct.1 hbased.1).merge hmore.2 hdistinct.2 hbased.2

end Stacking

end Config

end ToolGate
