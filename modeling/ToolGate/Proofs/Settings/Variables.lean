import Mathlib.Data.List.Induction
import ToolGate.Proofs.Settings.Placing
import ToolGate.Settings.Environment

namespace ToolGate

namespace Setting

inductive Reordered : Setting → Setting → Prop
  | refl (s : Setting) : Reordered s s
  | group {ms ns : Settings} {base : Setting} : ms.names.Perm ns.names →
      (∀ name s t, Named.get? name ms = some s → Named.get? name ns = some t → Reordered s t) →
      Reordered (.group ms base) (.group ns base)

variable {s t u : Setting} {ms ns : Settings} {name : String}

theorem reordered_plain : Reordered (.plain ms) (.plain ns) ↔ ms.names.Perm ns.names ∧
    ∀ name s t, Named.get? name ms = some s → Named.get? name ns = some t → Reordered s t := by
  constructor
  · intro h
    cases h with
    | refl =>
        refine ⟨.refl _, fun name s t hs ht => ?_⟩
        rw [hs] at ht
        cases ht
        exact .refl s
    | group hnames hmembers => exact ⟨hnames, hmembers⟩
  · rintro ⟨hnames, hmembers⟩
    exact .group hnames hmembers

theorem Reordered.trans (h : Reordered s t) (h' : Reordered t u) : Reordered s u := by
  induction h generalizing u with
  | refl => exact h'
  | @group ms ns base hnames hmembers ih =>
      cases h' with
      | refl => exact .group hnames hmembers
      | @group _ ls _ hnames' hmembers' =>
          refine .group (hnames.trans hnames') fun name a c ha hc => ?_
          have hname : name ∈ ns.names :=
            hnames.mem_iff.1 (Named.isSome_get?.1 (by rw [ha]; rfl))
          obtain ⟨b, hb⟩ := Option.isSome_iff_exists.1 (Named.isSome_get?.2 hname)
          exact ih name a b ha hb (hmembers' name b c hb hc)

theorem Reordered.put (h : Reordered (.plain ms) (.plain ns)) (hst : Reordered s t)
    (name : String) : Reordered (.plain (Named.put name s ms)) (.plain (Named.put name t ns)) := by
  obtain ⟨hnames, hmembers⟩ := reordered_plain.1 h
  refine reordered_plain.2 ⟨?_, fun k a b ha hb => ?_⟩
  · rw [Named.names_put, Named.names_put]
    simp only [hnames.mem_iff]
    split
    · exact hnames
    · exact hnames.append_right _
  · rw [Named.get?_put] at ha hb
    split at ha
    · rename_i hk
      rw [if_pos hk] at hb
      cases ha
      cases hb
      exact hst
    · rename_i hk
      rw [if_neg hk] at hb
      exact hmembers k a b ha hb

theorem reordered_put_put {k : String} (h : name ≠ k) (s t : Setting) (ms : Settings) :
    Reordered (.plain (Named.put name s (Named.put k t ms)))
      (.plain (Named.put k t (Named.put name s ms))) := by
  refine reordered_plain.2 ⟨?_, fun other a b ha hb => ?_⟩
  · simp only [Named.names_put]
    by_cases hname : name ∈ ms.names
    · by_cases hk : k ∈ ms.names <;> simp [hname, hk]
    · by_cases hk : k ∈ ms.names
      · simp [hname, hk]
      · simpa [hname, hk, h, Ne.symm h] using (List.Perm.swap name k []).append_left ms.names
  · have hsame : Named.get? other (Named.put name s (Named.put k t ms)) =
        Named.get? other (Named.put k t (Named.put name s ms)) := by
      simp only [Named.get?_put]
      split
      · rename_i heq
        rw [if_neg fun hk => h (heq.trans hk.symm)]
      · rfl
    rw [hsame, hb] at ha
    cases ha
    exact .refl _

end Setting

namespace Settings

open Setting (Reordered)

variable {v w : Setting} {p q : List String} {base other : Settings}

def Apart (p q : List String) : Prop :=
  ¬p <+: q ∧ ¬q <+: p

instance (p q : List String) : Decidable (Apart p q) :=
  inferInstanceAs (Decidable (_ ∧ _))

theorem Apart.symm (h : Apart p q) : Apart q p :=
  And.symm h

theorem Apart.ne_nil (h : Apart p q) : p ≠ [] := by
  rintro rfl
  exact h.1 List.nil_prefix

theorem reordered_below (h : Reordered (.plain base) (.plain other)) (name : String) :
    Reordered (.plain (below name base)) (.plain (below name other)) := by
  obtain ⟨hnames, hmembers⟩ := Setting.reordered_plain.1 h
  rw [below, below]
  cases hbase : Named.get? name base with
  | none =>
      have hother : Named.get? name other = none := by
        rw [Named.get?_eq_none] at hbase ⊢
        exact fun hmem => hbase (hnames.mem_iff.2 hmem)
      rw [hother]
      exact .refl _
  | some s =>
      have hname : name ∈ other.names :=
        hnames.mem_iff.1 (Named.isSome_get?.1 (by rw [hbase]; rfl))
      obtain ⟨t, hother⟩ := Option.isSome_iff_exists.1 (Named.isSome_get?.2 hname)
      rw [hother]
      cases hmembers name s t hbase hother with
      | refl => exact .refl _
      | group hnames' hmembers' => exact .group hnames' hmembers'

theorem reordered_placed (h : Reordered (.plain base) (.plain other)) (v : Setting)
    (p : List String) : Reordered (placed v p base) (placed v p other) := by
  induction p generalizing base other with
  | nil => exact .refl v
  | cons name p ih =>
      rw [placed_cons, placed_cons]
      exact h.put (ih (reordered_below h name)) name

theorem reordered_placed_placed (h : Apart p q) (v w : Setting) (base : Settings) :
    Reordered (placed v p (placed w q base).members) (placed w q (placed v p base).members) := by
  induction p generalizing q base with
  | nil => exact absurd List.nil_prefix h.1
  | cons name p ih =>
      cases q with
      | nil => exact absurd List.nil_prefix h.2
      | cons k q =>
          by_cases hname : name = k
          · subst hname
            have hrest : Apart p q := ⟨fun hpq => h.1 (List.prefix_cons_inj name |>.2 hpq),
              fun hqp => h.2 (List.prefix_cons_inj name |>.2 hqp)⟩
            rw [placed_below, placed_below]
            exact Reordered.put (.refl _) (ih hrest (below name base)) name
          · rw [placed_cons v, below_placed_other (Ne.symm hname), placed_cons w,
              placed_cons w, below_placed_other hname, placed_cons v]
            exact Setting.reordered_put_put hname _ _ base

theorem reordered_set (h : Reordered (.plain base) (.plain other)) (v : Setting)
    (p : List String) : Reordered (.plain (set v p base)) (.plain (set v p other)) := by
  by_cases hp : p = []
  · subst hp
    exact h
  · rw [plain_set v hp, plain_set v hp]
    exact reordered_placed h v p

theorem reordered_set_set (h : Apart p q) (v w : Setting) (base : Settings) :
    Reordered (.plain (set v p (set w q base))) (.plain (set w q (set v p base))) := by
  have hcomm := reordered_placed_placed h v w base
  rwa [← plain_set v h.ne_nil, ← plain_set w h.symm.ne_nil, ← plain_set v h.ne_nil,
    ← plain_set w h.symm.ne_nil] at hcomm

def setAll (base : Settings) (as : List (List String × Setting)) : Settings :=
  as.foldl (fun base a => set a.2 a.1 base) base

section All

variable {as bs : List (List String × Setting)} {a : List String × Setting}
  {place : List String}

theorem setAll_concat (base : Settings) (as : List (List String × Setting))
    (a : List String × Setting) : setAll base (as ++ [a]) = set a.2 a.1 (setAll base as) := by
  rw [setAll, List.foldl_append]
  rfl

theorem reordered_setAll_base (h : Reordered (.plain base) (.plain other))
    (as : List (List String × Setting)) :
    Reordered (.plain (setAll base as)) (.plain (setAll other as)) := by
  induction as generalizing base other with
  | nil => exact h
  | cons a as ih => exact ih (reordered_set h a.2 a.1)

theorem reordered_setAll (h : as.Perm bs) (hapart : as.Pairwise fun a b => Apart a.1 b.1)
    (base : Settings) : Reordered (.plain (setAll base as)) (.plain (setAll base bs)) := by
  induction h generalizing base with
  | nil => exact .refl _
  | cons a h ih => exact ih (List.pairwise_cons.1 hapart).2 _
  | swap a b as =>
      have hab : Apart b.1 a.1 := List.rel_of_pairwise_cons hapart List.mem_cons_self
      exact reordered_setAll_base (reordered_set_set hab.symm a.2 b.2 base) as
  | trans h h' ih ih' =>
      have hapart' := (h.pairwise_iff fun hab => Apart.symm hab).1 hapart
      exact (ih hapart base).trans (ih' hapart' base)

theorem held?_setAll (hne : ∀ a ∈ as, a.1 ≠ []) (hapart : as.Pairwise fun a b => Apart a.1 b.1)
    (ha : a ∈ as) (base : Settings) :
    (Setting.plain (setAll base as)).held? a.1 = a.2.held? [] := by
  induction as using List.reverseRecOn with
  | nil => cases ha
  | append_singleton as last ih =>
      simp only [List.forall_mem_append, List.forall_mem_singleton] at hne
      obtain ⟨hpairs, -, hlast⟩ := List.pairwise_append.1 hapart
      rw [setAll_concat, plain_set last.2 hne.2]
      rcases List.mem_append.1 ha with hold | hnew
      · have hbetween := hlast a hold last List.mem_cons_self
        rw [held?_placed_apart hbetween.2 hbetween.1, ih hne.1 hpairs hold]
      · rw [List.mem_singleton.1 hnew]
        simpa using held?_placed last.2 last.1 [] (setAll base as)

theorem reached_setAll (hne : ∀ a ∈ as, a.1 ≠ []) {s : Setting}
    (h : (Setting.plain (setAll [] as)).held? place = some s) (hplace : place ≠ []) : ∃ a ∈ as,
      (∃ rest, place = a.1 ++ rest ∧ a.2.held? rest = some s) ∨ (place <+: a.1 ∧ s.isGroup) := by
  induction as using List.reverseRecOn with
  | nil =>
      cases place with
      | nil => exact absurd rfl hplace
      | cons name place => cases h
  | append_singleton as last ih =>
      simp only [List.forall_mem_append, List.forall_mem_singleton] at hne
      rw [setAll_concat, plain_set last.2 hne.2] at h
      by_cases hbelow : last.1 <+: place
      · obtain ⟨rest, rfl⟩ := hbelow
        rw [held?_placed] at h
        exact ⟨last, List.mem_append_right as List.mem_cons_self, .inl ⟨rest, rfl, h⟩⟩
      by_cases habove : place <+: last.1
      · have hother : place ≠ last.1 := by
          rintro rfl
          exact hbelow (List.prefix_refl _)
        obtain ⟨ms, hms⟩ := exists_held?_placed habove hother last.2 (setAll [] as)
        rw [hms] at h
        cases h
        exact ⟨last, List.mem_append_right as List.mem_cons_self, .inr ⟨habove, rfl⟩⟩
      · rw [held?_placed_apart hbelow habove] at h
        obtain ⟨a, ha, hreached⟩ := ih hne.1 h
        exact ⟨a, List.mem_append_left _ ha, hreached⟩

end All

end Settings

namespace Environment

open Settings (Apart setAll)

variable {env env' : List (String × String)} {name text : String} {path place : List String}

def assignments (env : List (String × String)) : List (List String × Setting) :=
  env.filterMap fun e => (settingOf? e.1).map fun path => (path, .ofJson (parseValue e.2))

def Independent (env : List (String × String)) : Prop :=
  env.Pairwise fun a b =>
    ∀ p q, settingOf? a.1 = some p → settingOf? b.1 = some q → Apart p q

theorem mem_assignments {a : List String × Setting} : a ∈ assignments env ↔
    ∃ name text, (name, text) ∈ env ∧ settingOf? name = some a.1 ∧
      a.2 = .ofJson (parseValue text) := by
  rw [assignments, List.mem_filterMap]
  constructor
  · rintro ⟨⟨name, text⟩, hmem, ha⟩
    obtain ⟨path, hpath, rfl⟩ := Option.map_eq_some_iff.1 ha
    exact ⟨name, text, hmem, hpath, rfl⟩
  · rintro ⟨name, text, hmem, hpath, hvalue⟩
    refine ⟨(name, text), hmem, Option.map_eq_some_iff.2 ⟨a.1, hpath, ?_⟩⟩
    rw [← hvalue]

theorem settings_eq (env : List (String × String)) : settings env = setAll [] (assignments env) := by
  induction env using List.reverseRecOn with
  | nil => rfl
  | append_singleton env e ih =>
      have hsplit : assignments (env ++ [e]) = assignments env ++ assignments [e] :=
        List.filterMap_append
      rw [settings, List.foldl_append, ← settings, ih, hsplit]
      cases hpath : settingOf? e.1 with
      | none => simp [assignments, hpath]
      | some path => simp [assignments, hpath, Settings.setAll_concat]

theorem ne_nil_of_mem_assignments {a : List String × Setting} (ha : a ∈ assignments env) :
    a.1 ≠ [] := by
  obtain ⟨name, text, -, hpath, -⟩ := mem_assignments.1 ha
  unfold settingOf? at hpath
  split at hpath
  · cases hpath
  · dsimp only at hpath
    split at hpath
    · obtain ⟨key, -, hkey⟩ := Option.map_eq_some_iff.1 hpath
      rw [← hkey]
      exact Settings.path_ne_nil key
    · cases hpath

theorem Independent.pairwise (h : Independent env) :
    (assignments env).Pairwise fun a b => Apart a.1 b.1 := by
  rw [assignments, List.pairwise_filterMap]
  refine h.imp fun hapart a ha b hb => ?_
  obtain ⟨p, hp, rfl⟩ := Option.map_eq_some_iff.1 ha
  obtain ⟨q, hq, rfl⟩ := Option.map_eq_some_iff.1 hb
  exact hapart p q hp hq

theorem held?_ofJson (v : Json) : (Setting.ofJson v).held? [] = some (.ofJson v) := by
  cases v <;> rfl

theorem settings_of_independent (h : Independent env) :
    (∀ env', env'.Perm env →
      (Setting.plain (settings env')).Reordered (.plain (settings env))) ∧
    (∀ name text path, (name, text) ∈ env → settingOf? name = some path →
      (Setting.plain (settings env)).held? path = some (.ofJson (parseValue text))) ∧
    ∀ place s, place ≠ [] → (Setting.plain (settings env)).held? place = some s →
      ∃ name text path, (name, text) ∈ env ∧ settingOf? name = some path ∧
        ((∃ rest, place = path ++ rest ∧ (Setting.ofJson (parseValue text)).held? rest = some s) ∨
          (place <+: path ∧ s.isGroup)) := by
  have hne (a) (ha : a ∈ assignments env) : a.1 ≠ [] := ne_nil_of_mem_assignments ha
  have hapart := h.pairwise
  refine ⟨fun env' hperm => ?_, fun name text path hmem hpath => ?_, fun place s hplace hs => ?_⟩
  · rw [settings_eq, settings_eq]
    have hassigned : (assignments env).Perm (assignments env') := hperm.symm.filterMap _
    have hapart' := (hassigned.pairwise_iff fun hab => Apart.symm hab).1 hapart
    exact Settings.reordered_setAll hassigned.symm hapart' []
  · rw [settings_eq]
    have hassigned : (path, Setting.ofJson (parseValue text)) ∈ assignments env :=
      mem_assignments.2 ⟨name, text, hmem, hpath, rfl⟩
    rw [Settings.held?_setAll hne hapart hassigned, held?_ofJson]
  · rw [settings_eq] at hs
    obtain ⟨a, ha, hreached⟩ := Settings.reached_setAll hne hs hplace
    obtain ⟨name, text, hmem, hpath, hvalue⟩ := mem_assignments.1 ha
    rw [hvalue] at hreached
    exact ⟨name, text, a.1, hmem, hpath, hreached⟩

namespace Variables

def given : List (String × String) :=
  [("FLOWGUARD_AUDIT__LEVEL", "alert"), ("FLOWGUARD_HOME", "/home"),
    ("FLOWGUARD_AUDIT__DIRS", "[1, 2]"), ("FLOWGUARD_AUDIT__ENABLED", "false")]

theorem independent_given : Independent given := by
  have hpaths : given.filterMap (fun e => settingOf? e.1) =
      [["audit", "level"], ["audit", "dirs"], ["audit", "enabled"]] := by
    decide +kernel
  have hapart : (given.filterMap fun e => settingOf? e.1).Pairwise Apart := by
    rw [hpaths]
    decide
  rw [List.pairwise_filterMap] at hapart
  exact hapart.imp fun hab p q hp hq => hab p hp q hq

theorem mem_enabled : ("FLOWGUARD_AUDIT__ENABLED", "false") ∈ given := by
  simp [given]

theorem settingOf?_enabled : settingOf? "FLOWGUARD_AUDIT__ENABLED" = some ["audit", "enabled"] := by
  decide +kernel

theorem parseValue_false : parseValue "false" = .bool false := by
  rw [parseValue, if_neg (by decide), if_pos rfl]

end Variables

open Variables in
theorem settings_of_independent_of_journal :
    (Setting.plain (settings given.reverse)).Reordered (.plain (settings given)) ∧
    (Setting.plain (settings given)).held? ["audit", "enabled"] = some (.value (.bool false)) := by
  obtain ⟨horder, hvalue, -⟩ := settings_of_independent independent_given
  have henabled := hvalue _ _ _ mem_enabled settingOf?_enabled
  rw [parseValue_false] at henabled
  exact ⟨horder _ (List.reverse_perm given), henabled⟩

end Environment

end ToolGate
