import ToolGate.Proofs.Settings.Merging

namespace ToolGate

namespace Setting

variable {s : Setting} {name : String} {place : List String}

theorem Ordinary.find? (hs : s.Ordinary) (h : name ∉ Json.commonNames) :
    s.find? name = Named.get? name s.members := by
  cases hs with
  | group hnames hbase hmembers =>
      have hcommon : commonMember? name = none := by simp [commonMember?, h]
      rw [Setting.find?, hcommon, Option.or_none, members]
  | _ => rfl

theorem Ordinary.plain_members (hs : s.Ordinary) : (plain s.members).Ordinary := by
  cases hs with
  | group hnames hbase hmembers => exact .group hnames hbase hmembers
  | _ => exact .group List.nodup_nil List.not_mem_nil nofun

theorem Ordinary.put {ms : Settings} (hms : (plain ms).Ordinary) (hs : s.Ordinary)
    (hname : name ≠ Json.baseName) : (plain (Named.put name s ms)).Ordinary := by
  cases hms with
  | group hnames hbase hmembers =>
      refine .group (Named.nodup_put hnames s name) (fun hmem => ?_) fun m hm => ?_
      · rcases Named.mem_names_put hmem with hold | hnew
        · exact hbase hold
        · exact hname hnew.symm
      · rcases Named.mem_put hm with rfl | hold
        · exact hs
        · exact hmembers m hold

theorem Ordinary.at?_eq_held? (hs : s.Ordinary) (h : ∀ name ∈ place, name ∉ Json.commonNames) :
    s.at? place = s.held? place := by
  induction place generalizing s with
  | nil => cases s <;> rfl
  | cons name place ih =>
      obtain ⟨hname, hplace⟩ := List.forall_mem_cons.1 h
      rw [at?, held?_cons, hs.find? hname]
      cases hget : Named.get? name s.members with
      | none => rfl
      | some t => exact ih (hs.member hget) hplace

end Setting

namespace Settings

variable {s v w : Setting} {name : String} {p q : List String} {base : Settings}

theorem pathParts_eq (cs : List Char) : pathParts cs = cs.splitOn '.' := by
  induction cs with
  | nil => rfl
  | cons c cs ih =>
      rw [pathParts, List.foldr_cons, ← pathParts, ih, List.splitOn_cons_eq_if_modifyHead]
      by_cases hpoint : c = '.'
      · simp [hpoint]
      · cases hrest : cs.splitOn '.' with
        | nil => exact absurd hrest (List.splitOn_ne_nil '.' cs)
        | cons p ps => simp [hpoint]

theorem path_ne_nil (text : String) : path text ≠ [] := by
  rw [path, pathParts_eq, ne_eq, List.map_eq_nil_iff]
  exact List.splitOn_ne_nil '.' text.toList

def below (name : String) (base : Settings) : Settings :=
  ((Named.get? name base).map Setting.members).getD []

def placed (s : Setting) (p : List String) (base : Settings) : Setting :=
  match p with
  | [] => s
  | name :: p => .plain (set s (name :: p) base)

theorem plain_set (s : Setting) (hp : p ≠ []) (base : Settings) :
    Setting.plain (set s p base) = placed s p base := by
  cases p with
  | nil => exact absurd rfl hp
  | cons name p => rfl

theorem placed_cons (s : Setting) (name : String) (p : List String) (base : Settings) :
    placed s (name :: p) base = .plain (Named.put name (placed s p (below name base)) base) := by
  cases p <;> rfl

theorem get?_placed (s : Setting) (name k : String) (p : List String) (base : Settings) :
    Named.get? k (placed s (name :: p) base).members =
      if name = k then some (placed s p (below name base)) else Named.get? k base := by
  rw [placed_cons]
  exact Named.get?_put base _ name k

theorem get?_placed_self (s : Setting) (name : String) (p : List String) (base : Settings) :
    Named.get? name (placed s (name :: p) base).members = some (placed s p (below name base)) := by
  rw [get?_placed, if_pos rfl]

theorem below_placed (s : Setting) (name : String) (p : List String) (base : Settings) :
    below name (placed s (name :: p) base).members = (placed s p (below name base)).members := by
  rw [below, get?_placed_self]
  rfl

theorem below_placed_other {k : String} (h : k ≠ name) (s : Setting) (p : List String)
    (base : Settings) : below name (placed s (k :: p) base).members = below name base := by
  rw [below, get?_placed, if_neg h]
  rfl

theorem ordinary_below (h : (Setting.plain base).Ordinary) (name : String) :
    (Setting.plain (below name base)).Ordinary := by
  rw [below]
  cases hget : Named.get? name base with
  | none => exact .group List.nodup_nil List.not_mem_nil nofun
  | some t => exact (h.member hget).plain_members

theorem ordinary_placed (hs : s.Ordinary) (hp : Json.baseName ∉ p)
    (h : (Setting.plain base).Ordinary) : (placed s p base).Ordinary := by
  induction p generalizing base with
  | nil => exact hs
  | cons name p ih =>
      rw [List.mem_cons, not_or] at hp
      rw [placed_cons]
      exact h.put (ih hp.2 (ordinary_below h name)) (Ne.symm hp.1)

theorem held?_below (name : String) (hq : q ≠ []) (base : Settings) :
    (Setting.plain base).held? (name :: q) = (Setting.plain (below name base)).held? q := by
  cases q with
  | nil => exact absurd rfl hq
  | cons k q =>
      rw [Setting.held?_cons, Setting.plain, Setting.members, below]
      cases Named.get? name base <;> rfl

theorem held?_placed (s : Setting) (p rest : List String) (base : Settings) :
    (placed s p base).held? (p ++ rest) = s.held? rest := by
  induction p generalizing base with
  | nil => rfl
  | cons name p ih =>
      rw [List.cons_append, Setting.held?_of_get? (get?_placed_self s name p base), ih]

theorem at?_placed (s : Setting) (p rest : List String) (base : Settings) :
    (placed s p base).at? (p ++ rest) = s.at? rest := by
  induction p generalizing base with
  | nil => rfl
  | cons name p ih =>
      rw [List.cons_append, Setting.at?_of_get? (get?_placed_self s name p base), ih]

theorem held?_placed_apart (h : ¬p <+: q) (h' : ¬q <+: p) (s : Setting) (base : Settings) :
    (placed s p base).held? q = (Setting.plain base).held? q := by
  induction p generalizing q base with
  | nil => exact absurd List.nil_prefix h
  | cons name p ih =>
      cases q with
      | nil => exact absurd List.nil_prefix h'
      | cons k q =>
          by_cases hname : name = k
          · subst hname
            rw [List.prefix_cons_inj] at h h'
            have hq : q ≠ [] := by
              rintro rfl
              exact h' List.nil_prefix
            rw [Setting.held?_of_get? (get?_placed_self s name p base), ih h h',
              held?_below name hq]
          · rw [Setting.held?_cons, get?_placed, if_neg hname]
            rfl

theorem exists_held?_placed {place : List String} (h : place <+: p) (hne : place ≠ p)
    (s : Setting) (base : Settings) : ∃ ms, (placed s p base).held? place = some (.plain ms) := by
  induction place generalizing p base with
  | nil =>
      cases p with
      | nil => exact absurd rfl hne
      | cons name p => exact ⟨_, rfl⟩
  | cons k place ih =>
      obtain ⟨rest, rfl⟩ := h
      rw [List.cons_append, Setting.held?_of_get? (get?_placed_self s k (place ++ rest) base)]
      refine ih (List.prefix_append _ _) ?_ _
      simpa using hne

theorem placed_below (v w : Setting) (name : String) (p q : List String) (base : Settings) :
    placed w (name :: q) (placed v (name :: p) base).members =
      .plain (Named.put name (placed w q (placed v p (below name base)).members) base) := by
  rw [placed_cons w, below_placed, placed_cons v]
  exact congrArg Setting.plain (Named.put_put base _ _ name)

theorem placed_placed (v w : Setting) (p : List String) (base : Settings) :
    placed w p (placed v p base).members = placed w p base := by
  induction p generalizing base with
  | nil => rfl
  | cons name p ih => rw [placed_below, ih, placed_cons]

/-- Putting at a path and reading, where no path goes through a base: what was put is read there; at a
path neither above nor below it the same is read as before, among the own members of groups, and among
all where no name on the path is one that every group has; and of two settings put at one path the
second alone stays. -/
theorem set_lawful (base : Settings) (p q : String) (v w : Setting) :
    Json.baseName ∉ path p → Json.baseName ∉ path q →
    (Setting.plain (set v (path p) base)).held? (path p) = v.held? [] ∧
    (Setting.plain (set v (path p) base)).at? (path p) = v.at? [] ∧
    (¬path p <+: path q → ¬path q <+: path p →
      (Setting.plain (set v (path p) base)).held? (path q) = (Setting.plain base).held? (path q) ∧
      ((Setting.plain base).Ordinary → v.Ordinary →
        (∀ name ∈ path q, name ∉ Json.commonNames) →
        (Setting.plain (set v (path p) base)).at? (path q) =
          (Setting.plain base).at? (path q))) ∧
    set w (path p) (set v (path p) base) = set w (path p) base := by
  intro hp _
  have hne := path_ne_nil p
  rw [plain_set v hne]
  refine ⟨?_, ?_, fun hpq hqp => ?_, ?_⟩
  · simpa using held?_placed v (path p) [] base
  · simpa using at?_placed v (path p) [] base
  · have hown := held?_placed_apart hpq hqp v base
    refine ⟨hown, fun hbase hv hq => ?_⟩
    rw [(ordinary_placed hv hp hbase).at?_eq_held? hq, hbase.at?_eq_held? hq, hown]
  · have hagain := placed_placed v w (path p) base
    rw [← plain_set v hne, ← plain_set w hne, ← plain_set w hne] at hagain
    exact congrArg Setting.members hagain

namespace Placing

def journalOff : Settings :=
  [("audit", .value (.str "off")), ("policy", .plain [("path", .value (.str "policy.json"))])]

theorem ordinary_journalOff : (Setting.plain journalOff).Ordinary := by
  refine .group (by decide) (by decide) ?_
  simp only [journalOff, List.forall_mem_cons]
  refine ⟨.value _, .group (by decide) (by decide) ?_, nofun⟩
  simpa using .value _

theorem path_enabled : path "audit.enabled" = ["audit", "enabled"] := by
  decide +kernel

theorem path_policy : path "policy.path" = ["policy", "path"] := by
  decide +kernel

end Placing

open Placing in
theorem set_lawful_of_switch :
    (Setting.plain (set (.value (.bool false)) ["audit", "enabled"] journalOff)).at?
        ["audit", "enabled"] = some (.value (.bool false)) ∧
    (Setting.plain (set (.value (.bool false)) ["audit", "enabled"] journalOff)).at?
        ["policy", "path"] = some (.value (.str "policy.json")) ∧
    set (.value (.bool true)) ["audit", "enabled"]
        (set (.value (.bool false)) ["audit", "enabled"] journalOff) =
      set (.value (.bool true)) ["audit", "enabled"] journalOff := by
  obtain ⟨-, hput, hother, hagain⟩ :=
    set_lawful journalOff "audit.enabled" "policy.path" (.value (.bool false)) (.value (.bool true))
      (by rw [path_enabled]; decide) (by rw [path_policy]; decide)
  rw [path_enabled] at hput hother hagain
  rw [path_policy] at hother
  obtain ⟨-, hread⟩ := hother (by decide) (by decide)
  exact ⟨hput, hread ordinary_journalOff (.value _) (by decide), hagain⟩

end Settings

end ToolGate
