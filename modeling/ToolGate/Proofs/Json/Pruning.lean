import ToolGate.Json.Basic
import ToolGate.Proofs.Named

namespace ToolGate.Json

variable {τ : Type}

inductive Distinct : Json τ → Prop
  | null : Distinct .null
  | bool (b) : Distinct (.bool b)
  | num (x) : Distinct (.num x)
  | str (s) : Distinct (.str s)
  | arr {items} : (∀ v ∈ items, Distinct v) → Distinct (.arr items)
  | obj {members : Named (Json τ)} : members.names.Nodup → (∀ m ∈ members, Distinct m.2) →
      Distinct (.obj members)

def at? : List String → Json τ → Option (Json τ)
  | [], v => some v
  | name :: place, .obj ms => (Named.get? name ms).bind (at? place)
  | _ :: _, _ => none

def behind (name : String) (places : List (List String)) : List (List String) :=
  places.filterMap fun
    | first :: rest => if first = name then some rest else none
    | [] => none

mutual

def without (places : List (List String)) : Json τ → Json τ
  | .obj members => .obj (membersWithout places members)
  | v => v

def membersWithout (places : List (List String)) : List (String × Json τ) → List (String × Json τ)
  | [] => []
  | (name, v) :: rest =>
      if [name] ∈ places then membersWithout places rest
      else (name, without (behind name places) v) :: membersWithout places rest

end

/-- The members differ at most at some places: in whether there is a member, and in its value. -/
inductive Alike : List (List String) → Named (Json τ) → Named (Json τ) → Prop
  | nil {places} : Alike places [] []
  | left {places name v ms ns} : [name] ∈ places → Alike places ms ns →
      Alike places ((name, v) :: ms) ns
  | right {places name v ms ns} : [name] ∈ places → Alike places ms ns →
      Alike places ms ((name, v) :: ns)
  | same {places name v ms ns} : Alike places ms ns →
      Alike places ((name, v) :: ms) ((name, v) :: ns)
  | within {places name inner inner' ms ns} : Alike (behind name places) inner inner' →
      Alike places ms ns → Alike places ((name, .obj inner) :: ms) ((name, .obj inner') :: ns)

variable {v : Json τ} {ms ns : Named (Json τ)} {name : String} {place rest : List String}
  {places : List (List String)}

theorem distinct_obj : Distinct (.obj ms) ↔ ms.names.Nodup ∧ ∀ m ∈ ms, Distinct m.2 := by
  constructor
  · intro h
    cases h with
    | obj hnames hmembers => exact ⟨hnames, hmembers⟩
  · rintro ⟨hnames, hmembers⟩
    exact .obj hnames hmembers

theorem induction_on_members {motive : Json τ → Prop}
    (other : ∀ v, v.isObject = false → motive v)
    (obj : ∀ ms : Named (Json τ), (∀ m ∈ ms, motive m.2) → motive (.obj ms)) (v : Json τ) :
    motive v := by
  cases v with
  | obj members =>
      refine obj members fun m hm => ?_
      have hsize := List.sizeOf_lt_of_mem hm
      have hvalue : sizeOf m.2 < sizeOf m := by
        obtain ⟨name, v⟩ := m
        simp only [Prod.mk.sizeOf_spec]
        omega
      exact induction_on_members other obj m.2
  | null => exact other _ rfl
  | bool b => exact other _ rfl
  | num x => exact other _ rfl
  | str s => exact other _ rfl
  | arr items => exact other _ rfl
termination_by sizeOf v
decreasing_by
  simp only [Json.obj.sizeOf_spec]
  omega

theorem mem_behind : place ∈ behind name places ↔ name :: place ∈ places := by
  simp only [behind, List.mem_filterMap]
  constructor
  · rintro ⟨other, hother, hrest⟩
    cases other with
    | nil => cases hrest
    | cons first rest =>
        dsimp only at hrest
        split at hrest
        · rename_i hfirst
          cases hrest
          exact hfirst ▸ hother
        · cases hrest
  · intro h
    exact ⟨_, h, if_pos rfl⟩

theorem behind_append (name : String) (places more : List (List String)) :
    behind name (places ++ more) = behind name places ++ behind name more :=
  List.filterMap_append

theorem behind_singleton (first : String) (rest : List String) (name : String) :
    behind name [first :: rest] = if first = name then [rest] else [] := by
  by_cases h : first = name
  · simp [behind, h]
  · simp [behind, h]

theorem without_of_not_isObject (h : v.isObject = false) (places : List (List String)) :
    without places v = v := by
  cases v with
  | obj members => cases h
  | _ => rfl

theorem membersWithout_eq (places : List (List String)) (ms : Named (Json τ)) :
    membersWithout places ms = ms.filterMap fun m =>
      if [m.1] ∈ places then none else some (m.1, without (behind m.1 places) m.2) := by
  induction ms with
  | nil => rfl
  | cons m ms ih =>
      obtain ⟨name, v⟩ := m
      rw [membersWithout, ih, List.filterMap_cons]
      split <;> rfl

theorem membersWithout_eq_self
    (h : ∀ m ∈ ms, [m.1] ∉ places ∧ without (behind m.1 places) m.2 = m.2) :
    membersWithout places ms = ms := by
  induction ms with
  | nil => rfl
  | cons m ms ih =>
      obtain ⟨name, v⟩ := m
      obtain ⟨hname, hv⟩ := h (name, v) List.mem_cons_self
      rw [membersWithout, if_neg hname, hv, ih fun m hm => h m (List.mem_cons_of_mem _ hm)]

theorem without_nil (v : Json τ) : without [] v = v := by
  induction v using induction_on_members with
  | other v hv => exact without_of_not_isObject hv []
  | obj ms ih =>
      rw [without, membersWithout_eq_self]
      exact fun m hm => ⟨List.not_mem_nil, ih m hm⟩

theorem without_append (places more : List (List String)) (v : Json τ) :
    without (places ++ more) v = without more (without places v) := by
  induction v using induction_on_members generalizing places more with
  | other v hv => simp only [without_of_not_isObject hv]
  | obj ms ih =>
      simp only [without]
      rw [membersWithout_eq, membersWithout_eq, membersWithout_eq, List.filterMap_filterMap]
      congr 1
      refine List.filterMap_congr fun m hm => ?_
      by_cases hfirst : [m.1] ∈ places
      · simp [hfirst]
      · by_cases hsecond : [m.1] ∈ more
        · simp [hfirst, hsecond]
        · simp [hfirst, hsecond, behind_append, ih m hm]

theorem membersWithout_append (places more : List (List String)) (ms : Named (Json τ)) :
    membersWithout (places ++ more) ms = membersWithout more (membersWithout places ms) := by
  have hvalue := without_append places more (.obj ms)
  simpa only [without, Json.obj.injEq] using hvalue

theorem names_membersWithout (places : List (List String)) (ms : Named (Json τ)) :
    Named.names (membersWithout places ms) = ms.names.filter ([·] ∉ places) := by
  induction ms with
  | nil => rfl
  | cons m ms ih =>
      obtain ⟨name, v⟩ := m
      rw [membersWithout]
      split
      · rename_i hname
        simpa [Named.names, hname] using ih
      · rename_i hname
        simpa [Named.names, hname] using ih

theorem get?_membersWithout (places : List (List String)) (ms : Named (Json τ)) (name : String) :
    Named.get? name (membersWithout places ms) =
      if [name] ∈ places then none
      else (ms.get? name).map (without (behind name places)) := by
  induction ms with
  | nil => simp [membersWithout, Named.get?]
  | cons m ms ih =>
      obtain ⟨other, v⟩ := m
      rw [membersWithout, Named.get?]
      by_cases hother : other = name
      · subst hother
        split
        · rename_i hname
          rw [ih, if_pos hname]
        · rw [Named.get?, if_pos rfl, if_pos rfl, Option.map_some]
      · split
        · exact ih
        · rw [Named.get?, if_neg hother, ih]

theorem Distinct.without (h : Distinct v) (places : List (List String)) :
    Distinct (without places v) := by
  induction h generalizing places with
  | @obj members hnames hmembers ih =>
      refine distinct_obj.2 ⟨?_, fun m hm => ?_⟩
      · rw [names_membersWithout]
        exact hnames.filter _
      · rw [membersWithout_eq, List.mem_filterMap] at hm
        obtain ⟨n, hn, hm⟩ := hm
        obtain ⟨-, hm⟩ := Option.ite_none_left_eq_some.1 hm
        cases hm
        exact ih n hn _
  | _ => constructor <;> assumption

theorem at?_without_hidden (hempty : [] ∉ places) (h : place ∈ places) (v : Json τ) :
    at? place (without places v) = none := by
  induction place generalizing places v with
  | nil => exact absurd h hempty
  | cons name place ih =>
      cases v with
      | obj members =>
          rw [without, at?, get?_membersWithout]
          split
          · rfl
          · rename_i hname
            cases hget : Named.get? name members with
            | none => rfl
            | some w =>
                have hbehind : [] ∉ behind name places := fun hmem => hname (mem_behind.1 hmem)
                exact ih hbehind (mem_behind.2 h) w
      | _ => rfl

def Apart (places : List (List String)) (place : List String) : Prop :=
  ∀ hidden ∈ places, ¬hidden <+: place ∧ ¬place <+: hidden

theorem at?_without (h : Apart places place) (v : Json τ) :
    at? place (without places v) = at? place v := by
  induction place generalizing places v with
  | nil =>
      have hnone : places = [] := by
        refine List.eq_nil_iff_forall_not_mem.2 fun hidden hmem => ?_
        exact (h hidden hmem).2 List.nil_prefix
      rw [hnone, without_nil]
  | cons name place ih =>
      cases v with
      | obj members =>
          have hname : [name] ∉ places := by
            intro hmem
            exact (h _ hmem).1 (List.cons_prefix_cons.2 ⟨rfl, List.nil_prefix⟩)
          have hbehind : Apart (behind name places) place := by
            intro hidden hmem
            have hapart := h _ (mem_behind.1 hmem)
            simpa only [List.cons_prefix_cons, true_and] using hapart
          rw [without, at?, at?, get?_membersWithout, if_neg hname, Option.bind_map]
          exact congrArg _ (funext fun w => ih hbehind w)
      | _ => rfl

theorem Alike.membersWithout_eq (h : Alike places ms ns) :
    membersWithout places ms = membersWithout places ns := by
  induction h with
  | nil => rfl
  | left hname _ ih => rw [membersWithout, if_pos hname, ih]
  | right hname _ ih => rw [ih, membersWithout, if_pos hname]
  | same _ ih => rw [membersWithout, membersWithout, ih]
  | within _ _ inner ih => rw [membersWithout, membersWithout, without, without, inner, ih]

theorem Alike.at?_eq (h : Alike places ms ns) (hplace : Apart places place) :
    at? place (.obj ms) = at? place (.obj ns) := by
  have hleft := at?_without hplace (.obj ms)
  have hright := at?_without hplace (.obj ns)
  rw [without, h.membersWithout_eq] at hleft
  exact hleft.symm.trans hright

theorem Alike.mono (h : Alike places ms ns) {more : List (List String)} (hmore : places ⊆ more) :
    Alike more ms ns := by
  induction h generalizing more with
  | nil => exact .nil
  | left hname _ ih => exact .left (hmore hname) (ih hmore)
  | right hname _ ih => exact .right (hmore hname) (ih hmore)
  | same _ ih => exact .same (ih hmore)
  | within _ _ inner ih =>
      exact .within (inner fun _ hmem => mem_behind.2 (hmore (mem_behind.1 hmem))) (ih hmore)

theorem Alike.put (h : Alike places ms ns) (hname : [name] ∈ places) (v : Json τ) :
    Alike places ms (ns.put name v) := by
  induction h with
  | nil => exact .right hname .nil
  | left hother _ ih => exact .left hother (ih hname)
  | right hother hrest ih =>
      rw [Named.put]
      split
      · exact .right hother hrest
      · exact .right hother (ih hname)
  | same hrest ih =>
      rw [Named.put]
      split
      · rename_i heq
        exact .left (heq ▸ hname) (.right (heq ▸ hname) hrest)
      · exact .same (ih hname)
  | within hinner hrest _ ih =>
      rw [Named.put]
      split
      · rename_i heq
        exact .left (heq ▸ hname) (.right (heq ▸ hname) hrest)
      · exact .within hinner (ih hname)

theorem alike_membersWithout (places : List (List String)) (ms : Named (Json τ)) :
    Alike places ms (membersWithout places ms) := by
  have hvalue (v : Json τ) :
      ∀ ms, v = .obj ms → ∀ places, Alike places ms (membersWithout places ms) := by
    induction v using induction_on_members with
    | other v hv =>
        rintro ms rfl
        cases hv
    | obj members ih =>
        rintro ms heq places
        cases heq
        induction members with
        | nil => exact .nil
        | cons m rest ihrest =>
            obtain ⟨name, v⟩ := m
            have hrest := ihrest fun m hm => ih m (List.mem_cons_of_mem _ hm)
            rw [membersWithout]
            split
            · rename_i hname
              exact .left hname hrest
            · cases v with
              | obj inner => exact .within (ih _ List.mem_cons_self inner rfl _) hrest
              | _ => exact .same hrest
  exact hvalue _ ms rfl places

theorem membersWithout_membersWithout (places : List (List String)) (ms : Named (Json τ)) :
    membersWithout places (membersWithout places ms) = membersWithout places ms :=
  (alike_membersWithout places ms).membersWithout_eq.symm

theorem membersWithout_put (hname : [name] ∉ places) (ms : Named (Json τ)) (v : Json τ) :
    membersWithout places (ms.put name v) =
      Named.put name (without (behind name places) v) (membersWithout places ms) := by
  induction ms with
  | nil => simp [Named.put, membersWithout, hname]
  | cons m ms ih =>
      obtain ⟨other, w⟩ := m
      rw [Named.put]
      by_cases hother : other = name
      · subst hother
        rw [if_pos rfl, membersWithout, membersWithout, if_neg hname, if_neg hname, Named.put,
          if_pos rfl]
      · rw [if_neg hother, membersWithout, membersWithout, ih]
        split
        · rfl
        · rw [Named.put, if_neg hother]

theorem Distinct.of_get? (h : Distinct (.obj ms)) (hv : ms.get? name = some v) : Distinct v :=
  (distinct_obj.1 h).2 _ (Named.mem_of_get? hv)

theorem Distinct.put (h : Distinct (.obj ms)) (hv : Distinct v) (name : String) :
    Distinct (.obj (ms.put name v)) := by
  obtain ⟨hnames, hmembers⟩ := distinct_obj.1 h
  refine distinct_obj.2 ⟨Named.nodup_put hnames v name, fun m hm => ?_⟩
  obtain rfl | hm := Named.mem_put hm
  · exact hv
  · exact hmembers m hm

theorem membersWithout_of_notMem (h : name ∉ ms.names) (rest : List String) :
    membersWithout [name :: rest] ms = ms := by
  refine membersWithout_eq_self fun m hm => ?_
  have hother : name ≠ m.1 := fun heq => h (heq ▸ List.mem_map_of_mem hm)
  constructor
  · simp [Ne.symm hother]
  · rw [behind_singleton, if_neg hother, without_nil]

theorem erase_eq_membersWithout (h : ms.names.Nodup) (name : String) :
    Named.erase name ms = membersWithout [[name]] ms := by
  induction ms with
  | nil => rfl
  | cons m ms ih =>
      obtain ⟨other, v⟩ := m
      obtain ⟨hother, hnames⟩ := List.nodup_cons.1 h
      rw [Named.erase, membersWithout]
      by_cases heq : other = name
      · subst heq
        rw [if_pos rfl, if_pos List.mem_cons_self, membersWithout_of_notMem hother]
      · rw [if_neg heq, if_neg (by simpa using heq), behind_singleton, if_neg (Ne.symm heq),
          without_nil, ih hnames]

theorem put_eq_membersWithout (h : ms.names.Nodup) (hv : ms.get? name = some v)
    (hrest : rest ≠ []) :
    Named.put name (without [rest] v) ms = membersWithout [name :: rest] ms := by
  induction ms with
  | nil => cases hv
  | cons m ms ih =>
      obtain ⟨other, w⟩ := m
      obtain ⟨hother, hnames⟩ := List.nodup_cons.1 h
      have hkept : [other] ∉ [name :: rest] := by simp [Ne.symm hrest]
      rw [Named.get?] at hv
      rw [Named.put, membersWithout, if_neg hkept, behind_singleton]
      by_cases heq : other = name
      · subst heq
        rw [if_pos rfl] at hv
        cases hv
        rw [if_pos rfl, if_pos rfl, membersWithout_of_notMem hother]
      · rw [if_neg heq] at hv
        rw [if_neg heq, if_neg (Ne.symm heq), without_nil, ih hnames hv]

end ToolGate.Json
