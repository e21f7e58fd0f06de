import Mathlib.Data.List.Induction
import ToolGate.Proofs.Json.Distinctness
import ToolGate.Proofs.Settings.Merging
import ToolGate.Settings.Config

namespace ToolGate

namespace Setting

inductive Distinct : Setting → Prop
  | unset : Distinct .unset
  | value (v : Json) : Distinct (.value v)
  | group {ms : Settings} {base : Setting} : ms.names.Nodup → (∀ m ∈ ms, Distinct m.2) →
      Distinct (.group ms base)

variable {s t : Setting} {ms : Settings} {name : String}

theorem distinct_plain : Distinct (.plain ms) ↔ ms.names.Nodup ∧ ∀ m ∈ ms, m.2.Distinct := by
  constructor
  · intro h
    cases h with
    | group hnames hmembers => exact ⟨hnames, hmembers⟩
  · rintro ⟨hnames, hmembers⟩
    exact .group hnames hmembers

theorem Distinct.members (h : s.Distinct) : Distinct (.plain s.members) := by
  cases h with
  | group hnames hmembers => exact .group hnames hmembers
  | _ => exact .group List.nodup_nil nofun

theorem Distinct.nodup (h : s.Distinct) : s.members.names.Nodup :=
  (distinct_plain.1 h.members).1

theorem Distinct.member (h : s.Distinct) (ht : Named.get? name s.members = some t) : t.Distinct :=
  (distinct_plain.1 h.members).2 _ (Named.mem_of_get? ht)

theorem ofMembers_eq_map (ms : Named Json) : ofMembers ms = ms.map fun m => (m.1, ofJson m.2) := by
  induction ms with
  | nil => rfl
  | cons m ms ih => rw [ofMembers, ih, List.map_cons]

theorem distinct_ofJson {v : Json} (h : Json.Distinct v) : (ofJson v).Distinct := by
  induction v using Json.induction_on_members with
  | other v hv =>
      cases v with
      | obj ms => cases hv
      | _ => exact .value _
  | obj ms ih =>
      obtain ⟨hnames, hmembers⟩ := Json.distinct_obj.1 h
      rw [ofJson, ofMembers_eq_map]
      refine .group ?_ fun m hm => ?_
      · rw [Named.names, List.map_map]
        exact hnames
      · obtain ⟨n, hn, rfl⟩ := List.mem_map.1 hm
        exact ih n hn (hmembers n hn)

theorem Distinct.put (h : Distinct (.plain ms)) (hs : s.Distinct) (name : String) :
    Distinct (.plain (Named.put name s ms)) := by
  obtain ⟨hnames, hmembers⟩ := distinct_plain.1 h
  refine distinct_plain.2 ⟨Named.nodup_put hnames s name, fun m hm => ?_⟩
  rcases Named.mem_put hm with rfl | hm
  · exact hs
  · exact hmembers m hm

theorem Distinct.set (hs : s.Distinct) (path : List String) {base : Settings}
    (h : Distinct (.plain base)) : Distinct (.plain (Settings.set s path base)) := by
  fun_induction Settings.set s path base with
  | case1 base => exact h
  | case2 name base => exact h.put hs name
  | case3 name path base hpath inner ih =>
      refine h.put (ih ?_) name
      cases hname : Named.get? name base with
      | none =>
          have hinner : inner = [] := by simp [inner, hname]
          rw [hinner]
          exact .group List.nodup_nil nofun
      | some t =>
          have hinner : inner = t.members := by simp [inner, hname]
          rw [hinner]
          exact (Distinct.member h hname).members

end Setting

namespace Environment

theorem distinct_parseValue (s : String) : Json.Distinct (parseValue s) := by
  unfold parseValue
  split
  · exact .bool true
  split
  · exact .bool false
  split
  · split
    · exact .num _
    · exact .str s
  · split
    · cases hparse : (Json.parse? s : Option Json) with
      | none => exact .str s
      | some v => exact Json.distinct_of_parse? hparse
    · cases hparse : (Json.parse? s : Option Json) with
      | none => exact .str s
      | some v => exact Json.distinct_of_parse? hparse
    · exact .str s

theorem distinct_settings (env : List (String × String)) :
    Setting.Distinct (.plain (settings env)) := by
  induction env using List.reverseRecOn with
  | nil => exact .group List.nodup_nil nofun
  | append_singleton env entry ih =>
      rw [settings, List.foldl_append, ← settings, List.foldl_cons, List.foldl_nil]
      dsimp only
      split
      · exact ih
      · exact (Setting.distinct_ofJson (distinct_parseValue entry.2)).set _ ih

end Environment

namespace Config

theorem distinct_readFile {path content : String} {s : Setting} (h : readFile path content = .ok s) :
    s.Distinct := by
  unfold readFile at h
  split at h
  · cases h
  · rename_i ms hparse
    cases h
    exact Setting.distinct_ofJson (Json.distinct_of_parse? hparse)
  · cases h

end Config

end ToolGate
