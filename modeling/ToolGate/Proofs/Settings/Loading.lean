import ToolGate.Proofs.Json.Reading
import ToolGate.Proofs.Settings.Layers

namespace ToolGate

open Json (Shape Checked)

namespace Setting

variable {s t : Setting} {name : String}

theorem get?_shown (ms : Settings) (name : String) :
    Named.get? name (shown ms) = (Named.get? name ms).map json? := by
  induction ms with
  | nil => rfl
  | cons m ms ih =>
      rw [shown, Named.get?, Named.get?, ih]
      split <;> rfl

theorem get?_given {entries : List (String × Option Json)}
    (h : Named.get? name entries ≠ some none) :
    Named.get? name (given entries) = (Named.get? name entries).join := by
  induction entries with
  | nil => rfl
  | cons e entries ih =>
      obtain ⟨k, v⟩ := e
      rw [Named.get?] at h ⊢
      cases v with
      | none =>
          have hne : k ≠ name := fun heq => h (if_pos heq)
          rw [if_neg hne] at h ⊢
          exact ih h
      | some v =>
          rw [given, List.filterMap_cons, Option.map_some]
          dsimp only
          rw [Named.get?, ← given]
          split
          · rfl
          · rename_i hne
            rw [if_neg hne] at h
            exact ih h

theorem json?_ne_none (h : s ≠ .unset) : s.json? ≠ none := by
  cases s with
  | unset => exact absurd rfl h
  | value v => rw [json?]; exact nofun
  | group ms base => rw [json?]; exact nofun

theorem exists_json? (h : s.isGroup) : ∃ js, s.json? = some (.obj js) ∧
    ∀ name, Named.get? name s.members ≠ some .unset →
      (Named.get? name s.members = none → ∃ ms, s = .group ms .unset) →
      Named.get? name js = (Named.get? name s.members).bind json? := by
  obtain ⟨ms, base, rfl⟩ := exists_group h
  refine ⟨_, by rw [json?], fun name hset hbase => ?_⟩
  have hentry : Named.get? name (overlay (shown ms) (inherited base)) =
      (Named.get? name ms).map json? := by
    rw [overlay, Named.get?_append, get?_shown]
    cases hown : Named.get? name ms with
    | some t => rfl
    | none =>
        obtain ⟨ms', heq⟩ := hbase hown
        cases heq
        rfl
  have hshown : Named.get? name (overlay (shown ms) (inherited base)) ≠ some none := by
    rw [hentry, ne_eq, Option.map_eq_some_iff]
    rintro ⟨t, ht, hnone⟩
    refine json?_ne_none (fun hunset => hset ?_) hnone
    rw [members, ht, hunset]
  rw [get?_given hshown, hentry, members]
  cases Named.get? name ms <;> rfl

end Setting

theorem under_bind {α β : Type} (name : String) (c : Checked α) (f : α → Checked β) :
    Shape.under name (c >>= f) = Shape.under name c >>= fun a => Shape.under name (f a) := by
  cases c <;> rfl

theorem under_pure {α : Type} (name : String) (a : α) :
    Shape.under name (pure a : Checked α) = pure a := rfl

namespace Config

def ofValues (v : Place → Option Json) : Checked Config := do
  Shape.under "version" (Shape.orElse () Shape.one (v .version))
  let policy ← Shape.under "policy" (Shape.under "path" (Shape.filled (v .policyPath)))
  let snapshots ← Shape.under "snapshots" (Shape.under "dir" (Shape.filled (v .snapshotsPath)))
  let enabled ← Shape.under "audit"
    (Shape.under "enabled" (Shape.orElse true Shape.boolean (v .journalEnabled)))
  let dir ← Shape.under "audit" (Shape.under "dir" (Shape.filled (v .journalPath)))
  let level ← Shape.under "audit"
    (Shape.under "level" (Shape.orElse .info (Shape.choice Severity.table) (v .level)))
  let subject ← Shape.under "evaluation"
    (Shape.under "defaultSubject" (Shape.optional Shape.filled (v .defaultSubject)))
  return ⟨policy, snapshots, enabled, dir, level, subject⟩

section Values

variable {v : Place → Option Json} {c : Config}

theorem severity_get? {s : String} {level : Severity} :
    Severity.table.get? s = some level ↔ s = level.name := by
  constructor
  · intro h
    have hmem := Named.mem_of_get? h
    simp only [Severity.table, List.mem_cons, Prod.mk.injEq, List.not_mem_nil, or_false] at hmem
    rcases hmem with ⟨rfl, rfl⟩ | ⟨rfl, rfl⟩ | ⟨rfl, rfl⟩ | ⟨rfl, rfl⟩ | ⟨rfl, rfl⟩ <;> rfl
  · rintro rfl
    cases level <;> rfl

theorem orElse_one_ok {w : Option Json} :
    Shape.orElse () Shape.one w = .ok () ↔ w = none ∨ w = some (.num 1) := by
  rw [Shape.orElse_ok]
  constructor
  · rintro (⟨hw, -⟩ | ⟨w, rfl, hone⟩)
    · exact .inl hw
    · exact .inr (Shape.of_one_ok hone)
  · rintro (rfl | rfl)
    · exact .inl ⟨rfl, rfl⟩
    · exact .inr ⟨_, rfl, Shape.one_ok⟩

theorem filled_of_admits {s : String} {w : Option Json}
    (hadmits : ∃ s, w = some (.str s) ∧ s ≠ "") (hof : some (.str s) = w) :
    Shape.filled w = .ok s := by
  obtain ⟨t, rfl, ht⟩ := hadmits
  cases hof
  exact Shape.filled_ok.2 ⟨rfl, ht⟩

theorem ofValues_ok (hset : ∀ p, p ≠ .defaultSubject → v p ≠ none) :
    ofValues v = .ok c ↔ ∀ p : Place, p.Admits (v p) ∧ p.of c = v p := by
  simp only [ofValues, bind_ok, Shape.under_ok, pure_ok]
  constructor
  · rintro ⟨⟨⟩, hversion, policy, hpolicy, snapshots, hsnapshots, enabled, henabled, dir, hdir, level,
      hlevel, subject, hsubject, rfl⟩ p
    cases p with
    | version =>
        have hone := (orElse_one_ok.1 hversion).resolve_left (hset .version nofun)
        exact ⟨.inr hone, hone.symm⟩
    | policyPath =>
        obtain ⟨hv, hne⟩ := Shape.filled_ok.1 hpolicy
        exact ⟨⟨policy, hv, hne⟩, hv.symm⟩
    | snapshotsPath =>
        obtain ⟨hv, hne⟩ := Shape.filled_ok.1 hsnapshots
        exact ⟨⟨snapshots, hv, hne⟩, hv.symm⟩
    | journalEnabled =>
        rcases Shape.orElse_ok.1 henabled with ⟨hnone, -⟩ | ⟨w, hv, hb⟩
        · exact absurd hnone (hset .journalEnabled nofun)
        · rw [Shape.boolean_ok.1 hb] at hv
          exact ⟨.inr ⟨enabled, hv⟩, hv.symm⟩
    | journalPath =>
        obtain ⟨hv, hne⟩ := Shape.filled_ok.1 hdir
        exact ⟨⟨dir, hv, hne⟩, hv.symm⟩
    | level =>
        rcases Shape.orElse_ok.1 hlevel with ⟨hnone, -⟩ | ⟨w, hv, hchoice⟩
        · exact absurd hnone (hset .level nofun)
        · obtain ⟨s, hs, hget⟩ := Shape.choice_ok.1 hchoice
          rw [hs, severity_get?.1 hget] at hv
          exact ⟨.inr ⟨level, hv⟩, hv.symm⟩
    | defaultSubject =>
        rcases Shape.optional_ok.1 hsubject with ⟨hnone, rfl⟩ | ⟨w, s, hv, hfilled, rfl⟩
        · exact ⟨.inl hnone, hnone.symm⟩
        · obtain ⟨hw, hne⟩ := Shape.filled_ok.1 hfilled
          rw [hw] at hv
          exact ⟨.inr ⟨s, hv, hne⟩, hv.symm⟩
  · intro h
    obtain ⟨-, hversion⟩ := h .version
    obtain ⟨-, henabled⟩ := h .journalEnabled
    obtain ⟨-, hlevel⟩ := h .level
    obtain ⟨hadmits, hsubject⟩ := h .defaultSubject
    refine ⟨(), orElse_one_ok.2 (.inr hversion.symm),
      c.policyPath, filled_of_admits (h .policyPath).1 (h .policyPath).2,
      c.snapshotsPath, filled_of_admits (h .snapshotsPath).1 (h .snapshotsPath).2,
      c.journalEnabled, ?_, c.journalPath, filled_of_admits (h .journalPath).1 (h .journalPath).2,
      c.level, ?_, c.defaultSubject, ?_, rfl⟩
    · exact Shape.orElse_ok.2 (.inr ⟨_, henabled.symm, Shape.boolean_ok.2 rfl⟩)
    · exact Shape.orElse_ok.2
        (.inr ⟨_, hlevel.symm, Shape.choice_ok.2 ⟨_, rfl, severity_get?.2 rfl⟩⟩)
    · rw [Shape.optional_ok]
      cases hnamed : c.defaultSubject with
      | none => exact .inl ⟨by rw [← hsubject, Place.of, hnamed]; rfl, rfl⟩
      | some s =>
          have hv : some (.str s) = v .defaultSubject := by rw [← hsubject, Place.of, hnamed]; rfl
          rcases hadmits with hnone | hadmits
          · rw [hnone] at hv
            cases hv
          · refine .inr ⟨.str s, s, hv.symm, ?_, rfl⟩
            rw [hv]
            exact filled_of_admits hadmits hv

theorem exists_of_admits (hset : ∀ p, p ≠ .defaultSubject → v p ≠ none)
    (h : ∀ p : Place, p.Admits (v p)) : ∃ c, ∀ p : Place, p.of c = v p := by
  have hversion := (h .version).resolve_left (hset .version nofun)
  obtain ⟨policy, hpolicy, -⟩ := h .policyPath
  obtain ⟨snapshots, hsnapshots, -⟩ := h .snapshotsPath
  obtain ⟨enabled, henabled⟩ := (h .journalEnabled).resolve_left (hset .journalEnabled nofun)
  obtain ⟨dir, hdir, -⟩ := h .journalPath
  obtain ⟨level, hlevel⟩ := (h .level).resolve_left (hset .level nofun)
  obtain ⟨subject, hsubject⟩ : ∃ subject : Option String, subject.map .str = v .defaultSubject := by
    rcases h .defaultSubject with hnone | ⟨s, hs, -⟩
    · exact ⟨none, hnone.symm⟩
    · exact ⟨some s, hs.symm⟩
  refine ⟨⟨policy, snapshots, enabled, dir, level, subject⟩, fun p => ?_⟩
  cases p with
  | version => exact hversion.symm
  | policyPath => exact hpolicy.symm
  | snapshotsPath => exact hsnapshots.symm
  | journalEnabled => exact henabled.symm
  | journalPath => exact hdir.symm
  | level => exact hlevel.symm
  | defaultSubject => exact hsubject

end Values

section Stacking

variable {ls : List Setting} {m g : Setting} {name key : String} {place : List String}

theorem chosen_ne_unset {s : Setting} (h : chosen ls place = some s) : s ≠ .unset := by
  obtain ⟨l, -, hl⟩ := List.exists_of_findSome?_eq_some h
  exact Setting.held?_ne_unset hl

theorem chosen_cons (l : Setting) (ls : List Setting) (place : List String) :
    chosen (l :: ls) place = (chosen ls place).or (l.held? place) := by
  rw [chosen, List.reverse_cons, List.findSome?_append, ← chosen, List.findSome?_singleton]

theorem value_defaults (h : Home) (more : List Setting) {p : Place} (hp : p ≠ .defaultSubject) :
    value (defaults h :: more) p ≠ none := by
  have hchosen : chosen (defaults h :: more) p.path ≠ none := by
    rw [chosen_cons, ne_eq, Option.or_eq_none_iff, not_and_or]
    refine .inr ?_
    cases p with
    | defaultSubject => exact absurd rfl hp
    | _ => exact nofun
  obtain ⟨s, hs⟩ := Option.ne_none_iff_exists'.1 hchosen
  rw [value, hs, Option.bind_some]
  exact Setting.json?_ne_none (chosen_ne_unset hs)

theorem Section.json? (hg : Section ls name g) (hset : ∀ p, p ≠ .defaultSubject → value ls p ≠ none) :
    ∃ js, g.json? = some (.obj js) ∧
      ∀ p : Place, ∀ key, p.path = [name, key] → Named.get? key js = value ls p := by
  obtain ⟨js, hjs, hshown⟩ := Setting.exists_json? hg.group
  refine ⟨js, hjs, fun p key hp => ?_⟩
  have hkey := hg.keys p key hp
  rw [hshown key, hkey, value, hp]
  · rw [hkey]
    exact fun hunset => chosen_ne_unset hunset rfl
  · intro hnone
    refine hg.based ?_
    by_cases hsubject : p = .defaultSubject
    · subst hsubject
      cases hp
      rfl
    · rw [hkey, ← hp] at hnone
      exact absurd (by rw [value, hnone, Option.bind_none]) (hset p hsubject)

theorem one_of_isGroup {s : Setting} (h : s.isGroup) :
    Shape.orElse () Shape.one s.json? = Shape.fail .notOne := by
  obtain ⟨js, hjs, -⟩ := Setting.exists_json? h
  rw [hjs]
  rfl

theorem Stacked.shape_eq (hm : Stacked ls m) (hset : ∀ p, p ≠ .defaultSubject → value ls p ≠ none) :
    shape m.json? = ofValues (value ls) := by
  obtain ⟨js, hjs, hshown⟩ := Setting.exists_json? hm.group
  have hversion : Shape.orElse () Shape.one (Named.get? "version" js) =
      Shape.orElse () Shape.one (value ls .version) := by
    obtain ⟨v, w, hv, hw, hsame⟩ := hm.version
    have hset : v ≠ .unset := by
      rcases hsame with rfl | ⟨hgroup, -⟩
      · exact chosen_ne_unset hw
      · exact Setting.ne_unset_of_isGroup hgroup
    have hvalue : value ls .version = w.json? := by
      rw [value, Place.path, hw, Option.bind_some]
    rw [hshown "version" (by simp [hv, hset]) (by simp [hv]), hv, Option.bind_some, hvalue]
    rcases hsame with rfl | ⟨hv, hw⟩
    · rfl
    · rw [one_of_isGroup hv, one_of_isGroup hw]
  have hsection (name : String) (hname : name ∈ Config.sections) : ∃ inner,
      Named.get? name js = some (.obj inner) ∧
        ∀ p : Place, ∀ key, p.path = [name, key] → Named.get? key inner = value ls p := by
    obtain ⟨g, hget, hg⟩ := hm.sections name hname
    obtain ⟨inner, hinner, hkeys⟩ := hg.json? hset
    refine ⟨inner, ?_, hkeys⟩
    rw [hshown name (by simp [hget, Setting.ne_unset_of_isGroup hg.group]) (by simp [hget]), hget,
      Option.bind_some, hinner]
  obtain ⟨policy, hpolicy, hpath⟩ := hsection "policy" (by decide)
  obtain ⟨snapshots, hsnapshots, hdir⟩ := hsection "snapshots" (by decide)
  obtain ⟨journal, hjournal, hjournalKeys⟩ := hsection "audit" (by decide)
  obtain ⟨evaluation, hevaluation, hsubject⟩ := hsection "evaluation" (by decide)
  have hobject (ms : Named Json) : Shape.object (some (.obj ms)) = pure ms := rfl
  have hgiven (w : Json) : Shape.orElse none subjectShape (some w) = subjectShape (some w) := rfl
  simp only [shape, hjs, hobject, pure_bind, Shape.member, hversion, hpolicy, hsnapshots, hjournal,
    hevaluation, placeShape, journalShape, hgiven, subjectShape]
  simp only [hpath .policyPath "path" rfl, hdir .snapshotsPath "dir" rfl,
    hjournalKeys .journalEnabled "enabled" rfl, hjournalKeys .journalPath "dir" rfl,
    hjournalKeys .level "level" rfl, hsubject .defaultSubject "defaultSubject" rfl]
  simp only [ofValues, under_bind, under_pure, bind_assoc, pure_bind]

end Stacking

structure Regular (files : Named String) (h : Home) (named : Option String)
    (env : List (String × String)) (overrides : Setting) (ls : List Setting) : Prop where
  read : layers files h named env overrides = .ok ls
  distinct : overrides.Distinct
  sectioned : ∀ l ∈ ls, Sectioned l

section Loading

variable {files : Named String} {h : Home} {named : Option String} {env : List (String × String)}
  {overrides : Setting} {ls : List Setting}

theorem value_layers (hread : layers files h named env overrides = .ok ls) {p : Place}
    (hp : p ≠ .defaultSubject) : value ls p ≠ none := by
  obtain ⟨more, rfl, -⟩ := layers_ok hread
  exact value_defaults h more hp

theorem load_eq_ofValues (hregular : Regular files h named env overrides ls)
    (hbased : ∀ l ∈ ls, Unbased l) :
    load files h named env overrides = (ofValues (value ls)).mapError .invalid := by
  obtain ⟨more, rfl, hdistinct⟩ := layers_ok hregular.read
  have hstacked := stacked_stack h (List.forall_mem_cons.1 hregular.sectioned).2
    (hdistinct hregular.distinct) (List.forall_mem_cons.1 hbased).2
  rw [load_eq, hregular.read, Except.bind, ofSetting,
    hstacked.shape_eq fun p hp => value_layers hregular.read hp]

theorem load_leaf_by_leaf (hregular : Regular files h named env overrides ls)
    (hbased : ∀ l ∈ ls, Unbased l) :
    (∀ c, load files h named env overrides = .ok c → ∀ p : Place, p.of c = value ls p) ∧
    ((∃ fault, load files h named env overrides = .error fault) ↔
      ∃ p : Place, ¬p.Admits (value ls p)) ∧
    ∀ {files' h' named' env' overrides' ls'}, Regular files' h' named' env' overrides' ls' →
      (∀ l ∈ ls', Unbased l) → (∀ p : Place, value ls' p = value ls p) →
      load files' h' named' env' overrides' = load files h named env overrides := by
  have hload := load_eq_ofValues hregular hbased
  have hok (c : Config) : load files h named env overrides = .ok c ↔
      ∀ p : Place, p.Admits (value ls p) ∧ p.of c = value ls p := by
    rw [hload, mapError_ok, ofValues_ok fun p hp => value_layers hregular.read hp]
  refine ⟨fun c hc p => ((hok c).1 hc p).2, ⟨?_, ?_⟩, ?_⟩
  · rintro ⟨fault, hfault⟩
    by_contra hadmits
    simp only [not_exists, Classical.not_not] at hadmits
    obtain ⟨c, hc⟩ := exists_of_admits (fun p hp => value_layers hregular.read hp) hadmits
    rw [(hok c).2 fun p => ⟨hadmits p, hc p⟩] at hfault
    cases hfault
  · rintro ⟨p, hp⟩
    cases hresult : load files h named env overrides with
    | error fault => exact ⟨fault, rfl⟩
    | ok c => exact absurd ((hok c).1 hresult p).1 hp
  · intro files' h' named' env' overrides' ls' hregular' hbased' hsame
    rw [hload, load_eq_ofValues hregular' hbased', funext hsame]

end Loading

namespace Loading

def document : Named Json := [("audit", .obj [("level", .str "debug"), ("note", .bool true)])]

def localDocument : Named Json := [("audit", .obj [("level", .str "alert")])]

def files : Named String :=
  [("config.json", (Json.obj document).text), ("config.local.json", (Json.obj localDocument).text)]

def env : List (String × String) := [("FLOWGUARD_AUDIT__ENABLED", "false")]

def overrides : Setting :=
  .plain
    [("audit", .plain [("level", .unset), ("dir", text "/logs")]),
      ("evaluation", .plain [("defaultSubject", text "agent")])]

def upper : List Setting :=
  [.ofJson (.obj document),
    .ofJson (.obj localDocument),
    .plain [("audit", .plain [("enabled", .value (.bool false))])],
    overrides]

theorem readFile_text {ms : Named Json} (h : Json.Readable (.obj ms)) (path : String) :
    readFile path (Json.obj ms).text = .ok (.ofJson (.obj ms)) := by
  rw [readFile, h.parse?_text]

theorem readable_document : Json.Readable (.obj document) := by
  refine .obj (by decide) ?_
  simp only [document, List.forall_mem_singleton]
  exact .obj (by decide) (by simpa using ⟨.str _, .bool _⟩)

theorem readable_localDocument : Json.Readable (.obj localDocument) := by
  refine .obj (by decide) ?_
  simp only [localDocument, List.forall_mem_singleton]
  exact .obj (by decide) (by simpa using .str _)

theorem settings_env :
    Environment.settings env = [("audit", .plain [("enabled", .value (.bool false))])] := by
  have hname : Environment.settingOf? "FLOWGUARD_AUDIT__ENABLED" = some ["audit", "enabled"] := by
    decide +kernel
  have hvalue : Environment.parseValue "false" = .bool false := by
    rw [Environment.parseValue, if_neg (by decide), if_pos rfl]
  simp only [Environment.settings, env, List.foldl_cons, List.foldl_nil, hname, hvalue]
  rfl

theorem localFile_eq (h : Home) : localFile h (some "config.json") = "config.local.json" := by
  have hname : localPath "config.json" = "config.local.json" := by decide +kernel
  rw [localFile, hname]
  decide

theorem layers_eq (h : Home) :
    layers files h (some "config.json") env overrides = .ok (defaults h :: upper) := by
  have hfile : fileLayer files "config.json" = .ok (.ofJson (.obj document)) :=
    readFile_text readable_document "config.json"
  have hlocal : fileLayer files "config.local.json" = .ok (.ofJson (.obj localDocument)) :=
    readFile_text readable_localDocument "config.local.json"
  rw [layers, Option.getD_some, localFile_eq, hfile, hlocal, settings_env]
  rfl

theorem distinct_overrides : overrides.Distinct := by
  refine Setting.distinct_plain.2 ⟨by decide, ?_⟩
  simp only [List.forall_mem_cons]
  refine ⟨.group (by decide) ?_, .group (by decide) ?_, nofun⟩
  · simpa using ⟨.unset, .value _⟩
  · simpa using .value _

theorem regular (h : Home) :
    Regular files h (some "config.json") env overrides (defaults h :: upper) where
  read := layers_eq h
  distinct := distinct_overrides
  sectioned := List.forall_mem_cons.2 ⟨sectioned_defaults h, by decide +kernel⟩

end Loading

open Loading in
theorem load_leaf_by_leaf_of_five_layers :
    ∃ c, load files ⟨"/home"⟩ (some "config.json") env overrides = .ok c ∧ c.level = .alert ∧
      c.journalEnabled = false ∧ c.journalPath = "/logs" ∧ c.defaultSubject = some "agent" := by
  have hbased : ∀ l ∈ upper, Unbased l := by decide +kernel
  obtain ⟨hvalue, hrefused, -⟩ := load_leaf_by_leaf (regular ⟨"/home"⟩)
    (List.forall_mem_cons.2 ⟨unbased_defaults _, hbased⟩)
  cases hload : load files ⟨"/home"⟩ (some "config.json") env overrides with
  | error fault =>
      obtain ⟨p, hp⟩ := hrefused.1 ⟨fault, hload⟩
      refine absurd ?_ hp
      cases p with
      | version => exact .inr rfl
      | policyPath => exact ⟨_, rfl, by decide +kernel⟩
      | snapshotsPath => exact ⟨_, rfl, by decide +kernel⟩
      | journalEnabled => exact .inr ⟨false, rfl⟩
      | journalPath => exact ⟨"/logs", rfl, by decide⟩
      | level => exact .inr ⟨.alert, rfl⟩
      | defaultSubject => exact .inr ⟨"agent", rfl, by decide⟩
  | ok c =>
      have hof := hvalue c hload
      have henabled := hof .journalEnabled
      have hdir := hof .journalPath
      have hlevel := severity_get?.2 (Json.str.inj (Option.some.inj (hof .level))).symm
      have hsubject := hof .defaultSubject
      refine ⟨c, rfl, (Option.some.inj hlevel).symm, Json.bool.inj (Option.some.inj henabled),
        Json.str.inj (Option.some.inj hdir), ?_⟩
      obtain ⟨s, hs, hagent⟩ := Option.map_eq_some_iff.1 hsubject
      rw [hs, Json.str.inj hagent]

namespace Loading

def basedDocument : Named Json :=
  [("evaluation", .obj [(Json.baseName, .obj [("defaultSubject", .str "agent")])])]

def basedFiles : Named String := [("config.json", (Json.obj basedDocument).text)]

theorem readable_basedDocument : Json.Readable (.obj basedDocument) := by
  refine .obj (by decide) ?_
  simp only [basedDocument, List.forall_mem_singleton]
  refine .obj (by decide) ?_
  rw [List.forall_mem_singleton]
  exact .obj (by decide) (by simpa using .str _)

def basedLayers (h : Home) : List Setting :=
  [defaults h, .ofJson (.obj basedDocument), .unset, .plain [], .plain []]

theorem regular_based (h : Home) :
    Regular basedFiles h (some "config.json") [] (.plain []) (basedLayers h) where
  read := by
    have hfile : fileLayer basedFiles "config.json" = .ok (.ofJson (.obj basedDocument)) :=
      readFile_text readable_basedDocument "config.json"
    rw [layers, Option.getD_some, localFile_eq, hfile]
    rfl
  distinct := .group List.nodup_nil nofun
  sectioned := List.forall_mem_cons.2 ⟨sectioned_defaults h, by decide +kernel⟩

end Loading

open Loading in
theorem not_load_leaf_by_leaf : ¬∀ (files : Named String) (h : Home) (named : Option String)
    (env : List (String × String)) (overrides : Setting) (ls : List Setting),
    Regular files h named env overrides ls →
    ∀ c, load files h named env overrides = .ok c → ∀ p : Place, p.of c = value ls p := by
  intro hclaim
  have hregular := regular_based ⟨"/home"⟩
  have hload : load basedFiles ⟨"/home"⟩ (some "config.json") [] (.plain []) =
      ofSetting (stack (basedLayers ⟨"/home"⟩)) := by
    rw [load_eq, hregular.read, Except.bind]
  have hsubject : (ofSetting (stack (basedLayers ⟨"/home"⟩))).map defaultSubject =
      .ok (some "agent") := by
    decide +kernel
  obtain ⟨c, hc, hagent⟩ := map_ok.1 hsubject
  have hnone := hclaim _ _ _ _ _ _ hregular c (hload.trans hc) .defaultSubject
  rw [Place.of, hagent] at hnone
  cases hnone

end Config

end ToolGate
