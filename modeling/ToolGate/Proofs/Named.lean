import Mathlib.Data.List.Nodup
import Mathlib.Data.List.Perm.Basic
import ToolGate.Named

namespace ToolGate

namespace Named

variable {α : Type} {xs ys : Named α} {name other : String} {a : α}

theorem get?_append (xs ys : Named α) (name : String) :
    get? name (xs ++ ys) = (get? name xs).or (get? name ys) := by
  induction xs with
  | nil => rfl
  | cons x xs ih =>
      obtain ⟨k, a⟩ := x
      rw [List.cons_append, get?, get?, ih]
      split <;> rfl

theorem get?_erase (h : name ≠ other) (xs : Named α) : get? other (erase name xs) = get? other xs := by
  induction xs with
  | nil => rfl
  | cons x xs ih => grind [erase, get?]

theorem erase_sublist (name : String) (xs : Named α) : (erase name xs).Sublist xs := by
  induction xs with
  | nil => exact .refl _
  | cons x xs ih =>
      obtain ⟨k, a⟩ := x
      rw [erase]
      split
      · exact List.sublist_cons_self _ _
      · exact ih.cons_cons _

theorem mem_put {x : String × α} (h : x ∈ put name a xs) : x = (name, a) ∨ x ∈ xs := by
  induction xs with
  | nil => exact .inl (List.mem_singleton.1 h)
  | cons y ys ih => grind [put]

theorem mem_names_put (h : other ∈ (put name a xs).names) : other ∈ xs.names ∨ other = name := by
  obtain ⟨x, hx, rfl⟩ := List.mem_map.1 h
  obtain rfl | hx := mem_put hx
  · exact .inr rfl
  · exact .inl (List.mem_map_of_mem hx)

theorem get?_eq_none : get? name xs = none ↔ name ∉ xs.names := by
  induction xs with
  | nil => simp [get?, names]
  | cons x xs ih => grind [get?, names]

theorem isSome_get? : (get? name xs).isSome ↔ name ∈ xs.names := by
  rw [Option.isSome_iff_ne_none, ne_eq, get?_eq_none, Classical.not_not]

theorem erase_of_notMem (h : name ∉ xs.names) : erase name xs = xs := by
  induction xs with
  | nil => rfl
  | cons x xs ih =>
      obtain ⟨k, a⟩ := x
      simp only [names, List.map_cons, List.mem_cons, not_or] at h
      rw [erase, if_neg (Ne.symm h.1), ih h.2]

theorem get?_erase_self (h : xs.names.Nodup) (name : String) : get? name (erase name xs) = none := by
  induction xs with
  | nil => rfl
  | cons x xs ih =>
      obtain ⟨k, a⟩ := x
      obtain ⟨hk, hxs⟩ := List.nodup_cons.1 h
      rw [erase]
      split
      · rename_i heq
        exact get?_eq_none.2 (heq ▸ hk)
      · rename_i hne
        rw [get?, if_neg hne]
        exact ih hxs

theorem get?_of_mem (h : xs.names.Nodup) (hx : (name, a) ∈ xs) : get? name xs = some a := by
  induction xs with
  | nil => cases hx
  | cons x xs ih =>
      obtain ⟨k, b⟩ := x
      obtain ⟨hk, hxs⟩ := List.nodup_cons.1 h
      rw [get?]
      rcases List.mem_cons.1 hx with heq | hx
      · cases heq
        exact if_pos rfl
      · rw [if_neg, ih hxs hx]
        rintro rfl
        exact hk (List.mem_map.2 ⟨_, hx, rfl⟩)

theorem perm_of_get? (hx : xs.names.Nodup) (hy : ys.names.Nodup)
    (h : ∀ name, get? name xs = get? name ys) : xs.Perm ys := by
  refine (List.perm_ext_iff_of_nodup (List.Nodup.of_map _ hx) (List.Nodup.of_map _ hy)).2 fun x => ?_
  exact ⟨fun hmem => mem_of_get? (h x.1 ▸ get?_of_mem hx hmem),
    fun hmem => mem_of_get? (h x.1 ▸ get?_of_mem hy hmem)⟩

theorem put_self (h : get? name xs = some a) : put name a xs = xs := by
  induction xs with
  | nil => cases h
  | cons x xs ih =>
      obtain ⟨k, b⟩ := x
      rw [get?] at h
      rw [put]
      split
      · rename_i hk
        rw [if_pos hk] at h
        cases h
        rfl
      · rename_i hk
        rw [if_neg hk] at h
        rw [ih h]

theorem put_put (xs : Named α) (a b : α) (name : String) :
    put name a (put name b xs) = put name a xs := by
  induction xs with
  | nil => simp [put]
  | cons x xs ih => grind [put]

theorem erase_put (h : name ∉ xs.names) (a : α) : erase name (put name a xs) = xs := by
  induction xs with
  | nil => simp [put, erase]
  | cons x xs ih =>
      obtain ⟨k, b⟩ := x
      simp only [names, List.map_cons, List.mem_cons, not_or] at h
      rw [put, if_neg (Ne.symm h.1), erase, if_neg (Ne.symm h.1), ih h.2]

section Values

variable {β : Type} (f : α → β)

theorem get?_values (xs : Named α) (name : String) :
    get? name (xs.map fun x => (x.1, f x.2)) = (get? name xs).map f := by
  induction xs with
  | nil => rfl
  | cons x xs ih =>
      rw [List.map_cons, get?, get?, ih]
      split <;> rfl

theorem erase_values (xs : Named α) (name : String) :
    erase name (xs.map fun x => (x.1, f x.2)) = (erase name xs).map fun x => (x.1, f x.2) := by
  induction xs with
  | nil => rfl
  | cons x xs ih =>
      rw [List.map_cons, erase, erase, ih]
      split <;> rfl

theorem put_values (xs : Named α) (name : String) (a : α) :
    put name (f a) (xs.map fun x => (x.1, f x.2)) = (put name a xs).map fun x => (x.1, f x.2) := by
  induction xs with
  | nil => rfl
  | cons x xs ih =>
      rw [List.map_cons, put, put, ih]
      split <;> rfl

end Values

end Named

theorem eraseDups_concat (names : List String) (name : String) :
    (names ++ [name]).eraseDups =
      if name ∈ names then names.eraseDups else names.eraseDups ++ [name] := by
  rw [List.eraseDups_append]
  by_cases hmem : name ∈ names
  · simp [List.removeAll, hmem]
  · simp [List.removeAll, hmem, List.eraseDups_cons]

theorem indexFirst_perm {α : Type} (xs : Named α) : (indexFirst xs).Perm xs := by
  have hindexed : (xs.filterMap fun x => (index? x.1).map fun n => (n, x)).map Prod.snd =
      xs.filter fun x => (index? x.1).isSome := by
    induction xs with
    | nil => rfl
    | cons x xs ih => cases hx : index? x.1 <;> simp [hx, ih]
  have hsorted := (sortBy_perm (fun a b : Nat × (String × α) => a.1 ≤ b.1)
    (xs.filterMap fun x => (index? x.1).map fun n => (n, x))).map Prod.snd
  rw [hindexed] at hsorted
  refine (hsorted.append_right _).trans ?_
  simpa only [Option.not_isSome] using
    List.filter_append_perm (fun x : String × α => (index? x.1).isSome) xs

end ToolGate
