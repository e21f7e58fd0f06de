import ToolGate.Proofs.Named
import ToolGate.Settings.Tree

namespace ToolGate.Setting

def isGroup : Setting → Bool
  | .group .. => true
  | _ => false

def held? : List String → Setting → Option Setting
  | [], .unset => none
  | [], s => some s
  | name :: place, s => (Named.get? name s.members).bind (held? place)

/-- A tree of groups on the common base. Each has its names once, and the base is named in none. -/
inductive Ordinary : Setting → Prop
  | unset : Ordinary .unset
  | value (v : Json) : Ordinary (.value v)
  | group {ms : Settings} : ms.names.Nodup → Json.baseName ∉ ms.names →
      (∀ m ∈ ms, Ordinary m.2) → Ordinary (.group ms .unset)

def BothGroups (target source : Setting) (place : List String) : Prop :=
  (∃ t, target.held? place = some t ∧ t.isGroup) ∧ ∃ s, source.held? place = some s ∧ s.isGroup

/-- The first point on the way to a place at which not both trees have a group. -/
structure PartsAt (target source : Setting) (place q : List String) : Prop where
  onWay : q <+: place
  apart : ¬BothGroups target source q
  first : ∀ r, r <+: q → r ≠ q → BothGroups target source r

section Members

variable {target source done s t : Setting} {name k : String}

theorem exists_group (h : s.isGroup) : ∃ ms base, s = .group ms base := by
  cases s with
  | group ms base => exact ⟨ms, base, rfl⟩
  | _ => cases h

theorem get?_put (hs : s.isGroup) (h : name = Json.baseName → k ≠ Json.baseName) (v : Setting) :
    Named.get? name (s.put k v).members =
      if k = name then some v else Named.get? name s.members := by
  obtain ⟨ms, base, rfl⟩ := exists_group hs
  rw [put]
  split
  · -- the base has been replaced, and no member
    rename_i hbase
    have hne : ¬k = name := fun heq => h (heq ▸ hbase.1) hbase.1
    rw [if_neg hne]
    rfl
  · exact Named.get?_put ms v k name

theorem isGroup_put (hs : s.isGroup) (k : String) (v : Setting) : (s.put k v).isGroup := by
  obtain ⟨ms, base, rfl⟩ := exists_group hs
  rw [put]
  split <;> rfl

theorem get?_mergeAll {ms : Settings} (hms : ms.names.Nodup) (hdone : done.isGroup)
    (hname : name = Json.baseName → name ∉ ms.names) :
    Named.get? name (mergeAll target done ms).members =
      ((Named.get? name ms).bind (mergeOne (target.under? name))).or
        (Named.get? name done.members) := by
  induction ms generalizing done with
  | nil => rfl
  | cons m ms ih =>
      obtain ⟨k, s⟩ := m
      obtain ⟨hk, hms⟩ := List.nodup_cons.1 hms
      have hrest : name = Json.baseName → name ∉ Named.names ms :=
        fun heq hmem => hname heq (List.mem_cons_of_mem k hmem)
      have hput : name = Json.baseName → k ≠ Json.baseName := by
        rintro heq rfl
        exact hname heq (heq ▸ List.mem_cons_self)
      rw [mergeAll, Named.get?]
      split
      · rename_i hnone
        rw [ih hms hdone hrest]
        split
        · rename_i heq
          subst heq
          rw [Named.get?_eq_none.2 hk, Option.bind_some, hnone, Option.bind_none]
        · rfl
      · rename_i v hv
        rw [ih hms (isGroup_put hdone k v) hrest, get?_put hdone hput]
        split
        · rename_i heq
          subst heq
          rw [Named.get?_eq_none.2 hk, Option.bind_some, hv, Option.bind_none]
          rfl
        · rfl

theorem exists_mergeAll {ms : Settings} (h : Json.baseName ∉ ms.names) (under : Settings)
    (base : Setting) : ∃ merged, mergeAll target (.group under base) ms = .group merged base := by
  induction ms generalizing under with
  | nil => exact ⟨under, rfl⟩
  | cons m ms ih =>
      obtain ⟨k, s⟩ := m
      obtain ⟨hk, hms⟩ := not_or.1 (mt List.mem_cons.2 h)
      rw [mergeAll]
      split
      · exact ih hms under
      · rename_i v hv
        rw [put, if_neg fun hbase => hk hbase.1.symm]
        exact ih hms _

theorem isGroup_mergeAll (hdone : done.isGroup) (ms : Settings) :
    (mergeAll target done ms).isGroup := by
  induction ms generalizing done with
  | nil => exact hdone
  | cons m ms ih =>
      rw [mergeAll]
      split
      · exact ih hdone
      · exact ih (isGroup_put hdone _ _)

theorem merge_groups (ms under : Settings) (base underBase : Setting) :
    merge (.group under underBase) (.group ms base) =
      mergeAll (.group under underBase) (.group under .unset) ms := by
  rw [merge, mergeOne]
  rfl

theorem mergeOne_groups (ht : t.isGroup) (hs : s.isGroup) :
    mergeOne (some t) s = some (merge t s) := by
  obtain ⟨under, underBase, rfl⟩ := exists_group ht
  obtain ⟨ms, base, rfl⟩ := exists_group hs
  rw [merge_groups, mergeOne]

theorem mergeOne_replaces {target : Option Setting} (hs : s ≠ .unset)
    (h : s.isGroup → ∀ t, target = some t → ¬t.isGroup) : mergeOne target s = some s := by
  cases s with
  | unset => exact absurd rfl hs
  | value v => rw [mergeOne]
  | group ms base =>
      rw [mergeOne]
      intro under underBase ht
      exact h rfl _ ht rfl

theorem merge_unset (t : Setting) : merge t .unset = t := by
  rw [merge, mergeOne]
  rfl

theorem isGroup_merge (ht : target.isGroup) (hs : source.isGroup) :
    (merge target source).isGroup := by
  obtain ⟨under, underBase, rfl⟩ := exists_group ht
  obtain ⟨ms, base, rfl⟩ := exists_group hs
  rw [merge_groups]
  exact isGroup_mergeAll rfl ms

theorem exists_merge (ht : target.isGroup) (hs : source.isGroup)
    (h : Json.baseName ∉ source.members.names) : ∃ ms, merge target source = .group ms .unset := by
  obtain ⟨under, underBase, rfl⟩ := exists_group ht
  obtain ⟨ms, base, rfl⟩ := exists_group hs
  rw [merge_groups]
  exact exists_mergeAll h under .unset

theorem ne_unset_of_isGroup (h : s.isGroup) : s ≠ .unset := by
  rintro rfl
  cases h

theorem exists_mergeOne (hs : s ≠ .unset) (target : Option Setting) :
    ∃ v, mergeOne target s = some v ∧ v ≠ .unset := by
  by_cases h : s.isGroup → ∀ t, target = some t → ¬t.isGroup
  · exact ⟨s, mergeOne_replaces hs h, hs⟩
  · simp only [Classical.not_imp, not_forall, Classical.not_not] at h
    obtain ⟨hgroup, t, rfl, ht⟩ := h
    exact ⟨_, mergeOne_groups ht hgroup, ne_unset_of_isGroup (isGroup_merge ht hgroup)⟩

theorem get?_merge (ht : target.isGroup) (hs : source.isGroup) (hms : source.members.names.Nodup)
    (hname : name = Json.baseName → name ∉ source.members.names) :
    Named.get? name (merge target source).members =
      ((Named.get? name source.members).bind (mergeOne (target.under? name))).or
        (Named.get? name target.members) := by
  obtain ⟨under, underBase, rfl⟩ := exists_group ht
  obtain ⟨ms, base, rfl⟩ := exists_group hs
  rw [merge_groups]
  exact get?_mergeAll hms rfl hname

theorem find?_of_get? (h : Named.get? name s.members = some t) : s.find? name = some t := by
  cases s with
  | group ms base =>
      cases base <;> simp_all [members, find?]
  | _ => cases h

theorem under?_of_get? (h : Named.get? name s.members = some t) : s.under? name = some t := by
  rw [under?, find?_of_get? h]

end Members

namespace Ordinary

variable {target source s t : Setting} {name : String}

theorem nodup (h : s.Ordinary) : s.members.names.Nodup := by
  cases h with
  | group hnames hbase hmembers => exact hnames
  | _ => exact List.nodup_nil

theorem base_notMem (h : s.Ordinary) : Json.baseName ∉ s.members.names := by
  cases h with
  | group hnames hbase hmembers => exact hbase
  | _ => exact List.not_mem_nil

theorem member (h : s.Ordinary) (ht : Named.get? name s.members = some t) : t.Ordinary := by
  cases h with
  | group hnames hbase hmembers => exact hmembers _ (Named.mem_of_get? ht)
  | _ => cases ht

theorem get?_of_under? (h : s.Ordinary) (hname : name ≠ Json.baseName)
    (ht : s.under? name = some t) (hgroup : t.isGroup) : Named.get? name s.members = some t := by
  have hfind : s.find? name = some t := by
    unfold under? at ht
    split at ht
    · rename_i hfound
      rw [hfound, ht]
    · exact absurd ht (by simp [hname])
  cases h with
  | @group ms hnames hbase hmembers =>
      rw [find?] at hfind
      rcases Option.or_eq_some_iff.1 hfind with hown | ⟨-, hcommon⟩
      · exact hown
      · unfold commonMember? at hcommon
        split at hcommon
        · cases hcommon
          cases hgroup
        · cases hcommon
  | _ => cases hfind

end Ordinary

section Places

variable {target source s t : Setting} {name : String} {place q r : List String}

theorem held?_root (h : s ≠ .unset) : s.held? [] = some s := by
  cases s with
  | unset => exact absurd rfl h
  | _ => rfl

theorem held?_cons (name : String) (place : List String) (s : Setting) :
    s.held? (name :: place) = (Named.get? name s.members).bind (held? place) := rfl

theorem held?_singleton :
    s.held? [name] = some t ↔ Named.get? name s.members = some t ∧ t ≠ .unset := by
  rw [held?_cons, Option.bind_eq_some_iff]
  constructor
  · rintro ⟨u, hu, ht⟩
    cases u with
    | unset => cases ht
    | _ =>
        cases ht
        exact ⟨hu, nofun⟩
  · rintro ⟨hu, hset⟩
    exact ⟨t, hu, held?_root hset⟩

theorem isSome_held? : (s.held? [name]).isSome ↔
    ∃ t, Named.get? name s.members = some t ∧ t ≠ .unset := by
  simp only [Option.isSome_iff_exists, held?_singleton]

theorem held?_ne_unset (h : s.held? place = some t) : t ≠ .unset := by
  induction place generalizing s with
  | nil =>
      cases s with
      | unset => cases h
      | _ =>
          cases h
          exact nofun
  | cons name place ih =>
      obtain ⟨u, -, hu⟩ := Option.bind_eq_some_iff.1 h
      exact ih hu

theorem bind_mergeOne (target : Option Setting) (s : Setting) (name : String) :
    (Named.get? name s.members).bind (mergeOne target) =
      (s.held? [name]).bind (mergeOne target) := by
  rw [held?_cons]
  cases Named.get? name s.members with
  | none => rfl
  | some t =>
      cases t with
      | unset =>
          rw [Option.bind_some, mergeOne]
          rfl
      | _ => rfl

theorem Ordinary.get?_merge (hs : source.Ordinary) (htg : target.isGroup) (hsg : source.isGroup)
    (name : String) : Named.get? name (merge target source).members =
      ((source.held? [name]).bind (mergeOne (target.under? name))).or
        (Named.get? name target.members) := by
  rw [← bind_mergeOne]
  refine Setting.get?_merge htg hsg hs.nodup ?_
  rintro rfl
  exact hs.base_notMem

theorem held?_of_get? (h : Named.get? name s.members = some t) (place : List String) :
    s.held? (name :: place) = t.held? place := by
  rw [held?_cons, h, Option.bind_some]

theorem at?_of_get? (h : Named.get? name s.members = some t) (place : List String) :
    s.at? (name :: place) = t.at? place := by
  rw [at?, find?_of_get? h, Option.bind_some]

theorem bothGroups_root (ht : target.isGroup) (hs : source.isGroup) :
    BothGroups target source [] :=
  ⟨⟨_, held?_root (ne_unset_of_isGroup ht), ht⟩, _, held?_root (ne_unset_of_isGroup hs), hs⟩

theorem bothGroups_singleton : BothGroups target source [name] ↔
    ∃ t s, Named.get? name target.members = some t ∧ Named.get? name source.members = some s ∧
      t.isGroup ∧ s.isGroup := by
  simp only [BothGroups, held?_singleton]
  constructor
  · rintro ⟨⟨t, ⟨ht, -⟩, htg⟩, s, ⟨hs, -⟩, hsg⟩
    exact ⟨t, s, ht, hs, htg, hsg⟩
  · rintro ⟨t, s, ht, hs, htg, hsg⟩
    exact ⟨⟨t, ⟨ht, ne_unset_of_isGroup htg⟩, htg⟩, s, ⟨hs, ne_unset_of_isGroup hsg⟩, hsg⟩

theorem bothGroups_cons (ht : Named.get? name target.members = some t)
    (hs : Named.get? name source.members = some s) :
    BothGroups target source (name :: r) ↔ BothGroups t s r := by
  simp only [BothGroups, held?_of_get? ht, held?_of_get? hs]

theorem PartsAt.ne_nil (h : PartsAt target source place q) (ht : target.isGroup)
    (hs : source.isGroup) : q ≠ [] := by
  rintro rfl
  exact h.apart (bothGroups_root ht hs)

theorem partsAt_below (htg : target.isGroup) (hsg : source.isGroup)
    (ht : Named.get? name target.members = some t)
    (hs : Named.get? name source.members = some s) :
    PartsAt target source (name :: place) (name :: q) ↔ PartsAt t s place q := by
  constructor
  · rintro ⟨honWay, hapart, hfirst⟩
    refine ⟨(List.cons_prefix_cons.1 honWay).2, fun hboth => ?_, fun r hr hne => ?_⟩
    · exact hapart ((bothGroups_cons ht hs).2 hboth)
    · refine (bothGroups_cons ht hs).1 (hfirst _ (List.cons_prefix_cons.2 ⟨rfl, hr⟩) ?_)
      simpa using hne
  · rintro ⟨honWay, hapart, hfirst⟩
    refine ⟨List.cons_prefix_cons.2 ⟨rfl, honWay⟩, fun hboth => ?_, fun r hr hne => ?_⟩
    · exact hapart ((bothGroups_cons ht hs).1 hboth)
    · cases r with
      | nil => exact bothGroups_root htg hsg
      | cons k r =>
          obtain ⟨rfl, hrest⟩ := List.cons_prefix_cons.1 hr
          refine (bothGroups_cons ht hs).2 (hfirst r hrest ?_)
          simpa using hne

theorem partsAt_here (htg : target.isGroup) (hsg : source.isGroup)
    (h : ¬BothGroups target source [name]) (place : List String) :
    PartsAt target source (name :: place) [name] := by
  refine ⟨List.cons_prefix_cons.2 ⟨rfl, List.nil_prefix⟩, h, fun r hr hne => ?_⟩
  rcases List.prefix_cons_iff.1 hr with rfl | ⟨rest, rfl, hrest⟩
  · exact bothGroups_root htg hsg
  · rw [List.prefix_nil.1 hrest] at hne
    exact absurd rfl hne

theorem PartsAt.eq_here (hq : PartsAt target source (name :: place) q) (htg : target.isGroup)
    (hsg : source.isGroup) (h : ¬BothGroups target source [name]) : q = [name] := by
  have hne := hq.ne_nil htg hsg
  rcases List.prefix_cons_iff.1 hq.onWay with rfl | ⟨r, rfl, hr⟩
  · exact absurd rfl hne
  · by_contra hother
    refine h (hq.first [name] (List.cons_prefix_cons.2 ⟨rfl, List.nil_prefix⟩) ?_)
    exact Ne.symm hother

theorem isSome_merge (htg : target.isGroup) (hsg : source.isGroup) (hs : source.Ordinary)
    (name : String) : ((merge target source).held? [name]).isSome ↔
      (target.held? [name]).isSome ∨ (source.held? [name]).isSome := by
  rw [isSome_held?, isSome_held?, hs.get?_merge htg hsg]
  cases hheld : source.held? [name] with
  | none => simp
  | some s =>
      obtain ⟨v, hv, hset⟩ := exists_mergeOne (held?_ne_unset hheld) (target.under? name)
      simp [hv, hset]

structure SameAt (s t : Setting) (place : List String) : Prop where
  own : s.held? place = t.held? place
  found : s.at? place = t.at? place

theorem sameAt_below {u v : Setting} (hs : Named.get? name s.members = some u)
    (ht : Named.get? name t.members = some v) (h : SameAt u v place) :
    SameAt s t (name :: place) where
  own := by rw [held?_of_get? hs, held?_of_get? ht, h.own]
  found := by rw [at?_of_get? hs, at?_of_get? ht, h.found]

theorem sameAt_of_members {ms ns : Settings} (h : Named.get? name ms = Named.get? name ns)
    (place : List String) : SameAt (.group ms .unset) (.group ns .unset) (name :: place) where
  own := by rw [held?_cons, held?_cons, members, members, h]
  found := by rw [at?, at?, find?, find?, h]

theorem get?_merge_groups (htg : target.isGroup) (hsg : source.isGroup) (hs : source.Ordinary)
    (ht : Named.get? name target.members = some t) (hs' : Named.get? name source.members = some s)
    (h : t.isGroup) (h' : s.isGroup) :
    Named.get? name (merge target source).members = some (merge t s) := by
  have hheld : source.held? [name] = some s :=
    held?_singleton.2 ⟨hs', ne_unset_of_isGroup h'⟩
  rw [hs.get?_merge htg hsg, hheld, Option.bind_some, under?_of_get? ht, mergeOne_groups h h',
    Option.some_or]

theorem sameAt_merge_here (htg : target.isGroup) (hsg : source.isGroup) (ht : target.Ordinary)
    (hs : source.Ordinary) (h : ¬BothGroups target source [name]) (place : List String) :
    SameAt (merge target source)
      (if (source.held? [name]).isSome then source else target) (name :: place) := by
  have hmerge := hs.get?_merge htg hsg name
  cases hheld : source.held? [name] with
  | some s =>
      obtain ⟨hown, hset⟩ := held?_singleton.1 hheld
      have hreplaces : s.isGroup → ∀ t, target.under? name = some t → ¬t.isGroup := by
        intro hsg' t hunder htg'
        have hne : name ≠ Json.baseName := by
          rintro rfl
          exact hs.base_notMem (Named.isSome_get?.1 (by rw [hown]; rfl))
        have htm := ht.get?_of_under? hne hunder htg'
        exact h (bothGroups_singleton.2 ⟨t, s, htm, hown, htg', hsg'⟩)
      rw [hheld, Option.bind_some, mergeOne_replaces hset hreplaces, Option.some_or] at hmerge
      exact sameAt_below hmerge hown ⟨rfl, rfl⟩
  | none =>
      rw [hheld, Option.bind_none, Option.none_or] at hmerge
      obtain ⟨merged, hmerged⟩ := exists_merge htg hsg hs.base_notMem
      rw [hmerged] at hmerge ⊢
      cases ht with
      | group hnames hbase hmembers => exact sameAt_of_members hmerge place
      | _ => cases htg

end Places

theorem merge_at {target source : Setting} (htg : target.isGroup) (hsg : source.isGroup)
    (ht : target.Ordinary) (hs : source.Ordinary) (place : List String) :
    (∀ q, PartsAt target source place q → source.held? q = none →
      SameAt (merge target source) target place) ∧
    (∀ q, PartsAt target source place q → source.held? q ≠ none →
      SameAt (merge target source) source place) ∧
    ((¬∃ q, PartsAt target source place q) →
      ∃ g, (merge target source).held? place = some g ∧ g.isGroup ∧
        ∀ name, (g.held? [name]).isSome ↔
          (target.held? (place ++ [name])).isSome ∨ (source.held? (place ++ [name])).isSome) := by
  induction place generalizing target source with
  | nil =>
      have hnone (q : List String) (hq : PartsAt target source [] q) : q = [] :=
        List.prefix_nil.1 hq.onWay
      have hgroup := isGroup_merge htg hsg
      refine ⟨fun q hq => absurd (hnone q hq) (hq.ne_nil htg hsg),
        fun q hq => absurd (hnone q hq) (hq.ne_nil htg hsg), fun _ => ?_⟩
      exact ⟨_, held?_root (ne_unset_of_isGroup hgroup), hgroup, isSome_merge htg hsg hs⟩
  | cons name place ih =>
      by_cases hboth : BothGroups target source [name]
      · obtain ⟨t, s, htm, hsm, htg', hsg'⟩ := bothGroups_singleton.1 hboth
        have hmerge := get?_merge_groups htg hsg hs htm hsm htg' hsg'
        obtain ⟨hlower, hupper, hgroups⟩ := ih htg' hsg' (ht.member htm) (hs.member hsm)
        have hbelow (q : List String) (hq : PartsAt target source (name :: place) q) :
            ∃ inner, q = name :: inner ∧ PartsAt t s place inner := by
          rcases List.prefix_cons_iff.1 hq.onWay with rfl | ⟨inner, rfl, -⟩
          · exact absurd rfl (hq.ne_nil htg hsg)
          · exact ⟨inner, rfl, (partsAt_below htg hsg htm hsm).1 hq⟩
        refine ⟨fun q hq hunset => ?_, fun q hq hset => ?_, fun hnone => ?_⟩
        · obtain ⟨q, rfl, hinner⟩ := hbelow q hq
          rw [held?_of_get? hsm] at hunset
          exact sameAt_below hmerge htm (hlower q hinner hunset)
        · obtain ⟨q, rfl, hinner⟩ := hbelow q hq
          rw [held?_of_get? hsm] at hset
          exact sameAt_below hmerge hsm (hupper q hinner hset)
        · have hnone' : ¬∃ q, PartsAt t s place q := fun ⟨q, hq⟩ =>
            hnone ⟨_, (partsAt_below htg hsg htm hsm).2 hq⟩
          obtain ⟨g, hg, hgroup, hnames⟩ := hgroups hnone'
          refine ⟨g, (held?_of_get? hmerge place).trans hg, hgroup, fun k => ?_⟩
          rw [List.cons_append, held?_of_get? htm, held?_of_get? hsm]
          exact hnames k
      · have hhere := sameAt_merge_here htg hsg ht hs hboth place
        refine ⟨fun q hq hunset => ?_, fun q hq hset => ?_, fun hnone => ?_⟩
        · rw [hq.eq_here htg hsg hboth] at hunset
          simpa [hunset] using hhere
        · rw [hq.eq_here htg hsg hboth] at hset
          simpa [Option.isSome_iff_ne_none.2 hset] using hhere
        · exact absurd ⟨_, partsAt_here htg hsg hboth place⟩ hnone

namespace Merging

def lower : Setting :=
  .plain
    [("audit", .plain [("level", .value (.str "info")), ("dir", .value (.str "logs"))]),
      ("policy", .value (.arr []))]

def upper : Setting :=
  .plain
    [("audit", .plain [("level", .unset), ("enabled", .value (.bool true))]),
      ("policy", .plain [("path", .value (.str "policy.json"))])]

theorem ordinary_lower : lower.Ordinary := by
  refine .group (by decide) (by decide) ?_
  simp only [List.forall_mem_cons]
  refine ⟨.group (by decide) (by decide) ?_, .value _, nofun⟩
  simpa using ⟨.value _, .value _⟩

theorem ordinary_upper : upper.Ordinary := by
  refine .group (by decide) (by decide) ?_
  simp only [List.forall_mem_cons]
  refine ⟨.group (by decide) (by decide) ?_, .group (by decide) (by decide) ?_, nofun⟩
  · simpa using ⟨.unset, .value _⟩
  · simpa using .value _

theorem bothGroups_audit : BothGroups lower upper ["audit"] :=
  ⟨⟨_, rfl, rfl⟩, _, rfl, rfl⟩

theorem partsAt_policy : PartsAt lower upper ["policy", "path"] ["policy"] := by
  refine partsAt_here rfl rfl ?_ _
  rintro ⟨⟨t, ht, hgroup⟩, -⟩
  cases ht
  cases hgroup

theorem partsAt_level : PartsAt lower upper ["audit", "level"] ["audit", "level"] := by
  refine (partsAt_below rfl rfl rfl rfl).2 (partsAt_here rfl rfl ?_ _)
  rintro ⟨⟨t, ht, hgroup⟩, -⟩
  cases ht
  cases hgroup

end Merging

open Merging in
theorem merge_at_of_audit :
    SameAt (merge lower upper) lower ["audit", "level"] ∧
    SameAt (merge lower upper) upper ["policy", "path"] ∧
    ∃ g, (merge lower upper).held? ["audit"] = some g ∧ g.isGroup ∧
      (g.held? ["dir"]).isSome ∧ (g.held? ["enabled"]).isSome ∧ ¬(g.held? ["path"]).isSome := by
  have hat := @merge_at lower upper rfl rfl ordinary_lower ordinary_upper
  have hnowhere : ¬∃ q, PartsAt lower upper ["audit"] q := by
    rintro ⟨q, hq⟩
    rcases List.prefix_cons_iff.1 hq.onWay with rfl | ⟨r, rfl, hr⟩
    · exact hq.ne_nil rfl rfl rfl
    · rw [List.prefix_nil.1 hr] at hq
      exact hq.apart bothGroups_audit
  obtain ⟨g, hg, hgroup, hnames⟩ := (hat ["audit"]).2.2 hnowhere
  have hpath : ¬(g.held? ["path"]).isSome := fun hset => ((hnames _).1 hset).elim nofun nofun
  exact ⟨(hat _).1 _ partsAt_level rfl, (hat _).2.1 _ partsAt_policy nofun, g, hg, hgroup,
    (hnames _).2 (.inl rfl), (hnames _).2 (.inr rfl), hpath⟩

end ToolGate.Setting
