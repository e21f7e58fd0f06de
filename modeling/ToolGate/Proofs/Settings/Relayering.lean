import ToolGate.Proofs.Settings.Loading

namespace ToolGate

namespace Setting

variable {s target base : Setting} {ms own : Settings}

theorem mergeAll_of_settled (hbase : Json.baseName ∉ ms.names)
    (h : ∀ m ∈ ms, ∀ v, mergeOne (target.under? m.1) m.2 = some v → Named.get? m.1 own = some v) :
    mergeAll target (.group own base) ms = .group own base := by
  induction ms with
  | nil => rfl
  | cons m ms ih =>
      obtain ⟨k, s⟩ := m
      obtain ⟨hk, hms⟩ := not_or.1 (mt List.mem_cons.2 hbase)
      obtain ⟨hsettled, hrest⟩ := List.forall_mem_cons.1 h
      rw [mergeAll]
      split
      · exact ih hms hrest
      · rename_i v hv
        have hput : (Setting.group own base).put k v = .group own base := by
          rw [put, if_neg fun heq => hk heq.1.symm, Named.put_self (hsettled v hv)]
        rw [hput]
        exact ih hms hrest

theorem mergeOne_of_settled (hbase : Json.baseName ∉ ms.names)
    (hagain : ∀ m ∈ ms, ∀ t, mergeOne (mergeOne t m.2) m.2 = mergeOne t m.2)
    (h : ∀ m ∈ ms, m.2 ≠ .unset → ∃ t, Named.get? m.1 own = mergeOne t m.2) :
    mergeOne (some (plain own)) (plain ms) = some (plain own) := by
  rw [mergeOne_groups rfl rfl, plain, plain, merge_groups]
  refine congrArg some (mergeAll_of_settled hbase fun m hm v hv => ?_)
  have hset : m.2 ≠ .unset := by
    intro hunset
    rw [hunset, mergeOne] at hv
    cases hv
  obtain ⟨t, ht⟩ := h m hm hset
  obtain ⟨w, hw, -⟩ := exists_mergeOne hset t
  have hfound : Named.get? m.1 own = some w := ht.trans hw
  have hunder : Setting.under? m.1 (.group own .unset) = some w := under?_of_get? hfound
  rw [hunder, ← hw, hagain m hm, hw] at hv
  rw [hfound, hv]

theorem Ordinary.mergeOne_again (hs : s.Ordinary) (target : Option Setting) :
    mergeOne (mergeOne target s) s = mergeOne target s := by
  induction hs generalizing target with
  | unset => rw [mergeOne, mergeOne]
  | value v => rw [mergeOne, mergeOne]
  | @group ms hnames hbase hmembers ih =>
      by_cases hgroup : ∃ t, target = some t ∧ t.isGroup
      · obtain ⟨t, rfl, ht⟩ := hgroup
        have hordinary : (plain ms).Ordinary := .group hnames hbase hmembers
        obtain ⟨own, hown⟩ := exists_merge ht (rfl : (plain ms).isGroup) hbase
        rw [← plain, mergeOne_groups ht rfl, hown]
        refine mergeOne_of_settled hbase ih fun m hm hset => ⟨t.under? m.1, ?_⟩
        obtain ⟨v, hv, -⟩ := exists_mergeOne hset (t.under? m.1)
        have hheld : (plain ms).held? [m.1] = some m.2 :=
          held?_singleton.2 ⟨Named.get?_of_mem hnames hm, hset⟩
        have hmerge := hordinary.get?_merge ht rfl m.1
        rw [hown, hheld, Option.bind_some, hv, Option.some_or] at hmerge
        exact hmerge.trans hv.symm
      · -- the group itself stands there, and meets each of its own members
        have hreplaces : mergeOne target (plain ms) = some (plain ms) :=
          mergeOne_replaces (ne_unset_of_isGroup rfl) fun _ t ht htg => hgroup ⟨t, ht, htg⟩
        rw [← plain, hreplaces]
        refine mergeOne_of_settled hbase ih fun m hm hset => ⟨none, ?_⟩
        rw [Named.get?_of_mem hnames hm, mergeOne_replaces hset]
        intro _ t ht
        cases ht

theorem Ordinary.merge_again (hs : s.Ordinary) (target : Setting) :
    (target.merge s).merge s = target.merge s := by
  have hagain := hs.mergeOne_again (some target)
  cases hmerge : mergeOne (some target) s with
  | none =>
      have hunchanged : target.merge s = target := by rw [merge, hmerge, Option.getD_none]
      rw [hunchanged, hunchanged]
  | some v =>
      have hmerged : target.merge s = v := by rw [merge, hmerge, Option.getD_some]
      rw [hmerge] at hagain
      rw [hmerged, merge, hagain, Option.getD_some]

end Setting

namespace Config

def loadFiles (files : Named String) (h : Home) (paths : List String)
    (env : List (String × String)) (overrides : Setting) : Except ConfigFault Config := do
  let base ← paths.foldlM (fun base path => addFile files path base) (defaults h)
  ofSetting ((base.merge (.plain (Environment.settings env))).merge overrides)

section Loading

variable {files : Named String} {path : String}

theorem load_eq_loadFiles (files : Named String) (h : Home) (named : Option String)
    (env : List (String × String)) (overrides : Setting) : load files h named env overrides =
      loadFiles files h [named.getD h.config, localFile h named] env overrides := by
  simp only [load, loadFiles, List.foldlM_cons, List.foldlM_nil, bind_assoc, pure_bind]

theorem localFile_self (hne : path ≠ "") (hending : ¬jsonEnding <:+ path.toList) (h : Home) :
    localFile h (some path) = path := by
  have hlocal : localPath path = path := by
    rw [localPath]
    exact if_neg fun hsuffix => hending (List.isSuffixOf_iff_suffix.1 hsuffix)
  rw [localFile, hlocal]
  intro heq
  exact hne heq

theorem addFile_again (hfile : ∀ s, fileLayer files path = .ok s → s.Ordinary) (base : Setting) :
    addFile files path base >>= addFile files path = addFile files path base := by
  rw [addFile_eq]
  cases hlayer : fileLayer files path with
  | error fault => rfl
  | ok s =>
      change addFile files path (base.merge s) = Except.ok (base.merge s)
      rw [addFile_eq, hlayer, Except.map, (hfile s hlayer).merge_again]

end Loading

theorem layer_twice :
    (∀ target source : Setting, source.Ordinary →
      (target.merge source).merge source = target.merge source) ∧
    ∀ (files : Named String) (h : Home) (path : String) (env : List (String × String))
      (overrides : Setting), path ≠ "" → ¬jsonEnding <:+ path.toList →
      (∀ s, fileLayer files path = .ok s → s.Ordinary) →
      localFile h (some path) = path ∧
      load files h (some path) env overrides = loadFiles files h [path] env overrides := by
  refine ⟨fun target source hs => hs.merge_again target, ?_⟩
  intro files h path env overrides hne hending hfile
  have hlocal := localFile_self hne hending h
  refine ⟨hlocal, ?_⟩
  have hagain := addFile_again hfile (defaults h)
  rw [load_eq_loadFiles, hlocal, Option.getD_some]
  simp only [loadFiles, List.foldlM_cons, List.foldlM_nil, bind_assoc, pure_bind] at hagain ⊢
  rw [← bind_assoc, hagain]

namespace Relayering

def files : Named String := [("settings", (Json.obj Loading.document).text)]

theorem fileLayer_settings :
    fileLayer files "settings" = .ok (.ofJson (.obj Loading.document)) :=
  Loading.readFile_text Loading.readable_document "settings"

theorem ordinary_document : (Setting.ofJson (.obj Loading.document)).Ordinary := by
  refine .group (by decide) (by decide) ?_
  simp only [Loading.document, Setting.ofMembers, List.forall_mem_singleton]
  refine .group (by decide) (by decide) ?_
  simpa [Setting.ofMembers] using ⟨.value _, .value _⟩

end Relayering

open Relayering Setting.Merging in
theorem layer_twice_of_settings :
    (lower.merge upper).merge upper = lower.merge upper ∧
    localFile ⟨"/home"⟩ (some "settings") = "settings" ∧
    load files ⟨"/home"⟩ (some "settings") Loading.env Loading.overrides =
      loadFiles files ⟨"/home"⟩ ["settings"] Loading.env Loading.overrides := by
  obtain ⟨hmerge, hload⟩ := layer_twice
  refine ⟨hmerge lower upper ordinary_upper, hload _ _ _ _ _ (by decide) (by decide) fun s hs => ?_⟩
  rw [fileLayer_settings] at hs
  cases hs
  exact ordinary_document

end Config

end ToolGate
