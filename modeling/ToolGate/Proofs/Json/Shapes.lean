import Mathlib.Data.List.Forall2
import ToolGate.Json.Shape
import ToolGate.Proofs.Steps

namespace ToolGate.Json.Shape

variable {τ α : Type} {v : Option (Json τ)}

theorem under_ok {name : String} {c : Checked α} {a : α} :
    under name c = .ok a ↔ c = .ok a := by
  cases c <;> simp [under]

theorem member_ok {name : String} {shape : Shape α τ} {ms : Named (Json τ)} {a : α} :
    member name shape ms = .ok a ↔ shape (ms.get? name) = .ok a :=
  under_ok

theorem ofKind_ok {expected : Kind} {read : Json τ → Option α} {make : α → Json τ}
    (h : ∀ w a, read w = some a ↔ w = make a) {a : α} :
    ofKind expected read v = .ok a ↔ v = some (make a) := by
  cases v with
  | none => simp [ofKind, fail]
  | some w =>
      rw [Option.some_inj, ← h, ofKind]
      cases read w <;> simp [fail]

theorem string_ok {v : Option Json} {s : String} : string v = .ok s ↔ v = some (.str s) :=
  ofKind_ok fun w a => by cases w <;> simp [Textual.whole]

theorem boolean_ok {b : Bool} : boolean v = .ok b ↔ v = some (.bool b) :=
  ofKind_ok fun w a => by cases w <;> simp

theorem number_ok {x : Number} : number v = .ok x ↔ v = some (.num x) :=
  ofKind_ok fun w a => by cases w <;> simp

theorem array_ok {vs : List (Json τ)} : array v = .ok vs ↔ v = some (.arr vs) :=
  ofKind_ok fun w a => by cases w <;> simp

theorem object_ok {ms : Named (Json τ)} : object v = .ok ms ↔ v = some (.obj ms) :=
  ofKind_ok fun w a => by cases w <;> simp

theorem filled_ok {v : Option Json} {s : String} : filled v = .ok s ↔ v = some (.str s) ∧ s ≠ "" := by
  simp only [filled, bind_ok, string_ok]
  constructor
  · rintro ⟨t, rfl, ht⟩
    split at ht
    · cases ht
    · cases ht
      exact ⟨rfl, by assumption⟩
  · rintro ⟨rfl, hs⟩
    exact ⟨s, rfl, if_neg hs⟩

theorem integer_ok {x : Number} : integer v = .ok x ↔ v = some (.num x) ∧ x.isInteger := by
  simp only [integer, bind_ok, number_ok]
  constructor
  · rintro ⟨y, rfl, hy⟩
    split at hy
    · cases hy
      exact ⟨rfl, by assumption⟩
    · cases hy
  · rintro ⟨rfl, hx⟩
    exact ⟨x, rfl, if_pos hx⟩

theorem positive_ok {x : Number} (h : positive v = .ok x) : x.isInteger ∧ 0 < x := by
  obtain ⟨y, hy, hx⟩ := bind_ok.1 h
  split at hx
  · cases hx
    exact ⟨(integer_ok.1 hy).2, by assumption⟩
  · cases hx

theorem nonNegative_ok {x : Number} :
    nonNegative v = .ok x ↔ v = some (.num x) ∧ x.isInteger ∧ 0 ≤ x := by
  simp only [nonNegative, bind_ok, integer_ok]
  constructor
  · rintro ⟨y, ⟨rfl, hi⟩, hy⟩
    split at hy
    · cases hy
      exact ⟨rfl, hi, by assumption⟩
    · cases hy
  · rintro ⟨rfl, hi, hx⟩
    exact ⟨x, ⟨rfl, hi⟩, if_pos hx⟩

theorem one_ok : one (some (.num 1 : Json τ)) = .ok () := by
  rw [one, if_pos rfl]

theorem of_one_ok (h : one v = .ok ()) : v = some (.num 1) := by
  unfold one at h
  split at h
  · split at h
    · rename_i heq
      rw [heq]
    · cases h
  · cases h

theorem nullable_ok {shape : Shape α τ} {a? : Option α} :
    nullable shape v = .ok a? ↔
      v = some .null ∧ a? = none ∨ v ≠ some .null ∧ ∃ a, shape v = .ok a ∧ a? = some a := by
  by_cases hv : v = some .null
  · subst hv
    simp [nullable, eq_comm]
  · have hsome : nullable shape v = (shape v).map some := by
      unfold nullable
      split
      · exact absurd rfl hv
      · rfl
    rw [hsome]
    cases shape v <;> simp [hv, Except.map, eq_comm]

theorem itemsFrom_ok {shape : Shape α τ} {index : Nat} {vs : List (Json τ)} {xs : List α} :
    itemsFrom shape index vs = .ok xs ↔
      List.Forall₂ (fun w a => shape (some w) = .ok a) vs xs := by
  induction vs generalizing index xs with
  | nil => cases xs <;> simp [itemsFrom]
  | cons w vs ih =>
      simp only [itemsFrom, bind_ok, under_ok, ih]
      constructor
      · rintro ⟨a, ha, rest, hrest, hxs⟩
        cases hxs
        exact .cons ha hrest
      · rintro (_ | ⟨ha, hrest⟩)
        exact ⟨_, ha, _, hrest, rfl⟩

theorem list_ok {shape : Shape α τ} {xs : List α} :
    list shape v = .ok xs ↔
      ∃ vs, v = some (.arr vs) ∧ List.Forall₂ (fun w a => shape (some w) = .ok a) vs xs := by
  simp only [list, bind_ok, array_ok, itemsFrom_ok]

theorem filledList_ok {shape : Shape α τ} {xs : List α} :
    filledList shape v = .ok xs ↔
      ∃ vs, v = some (.arr vs) ∧ vs ≠ [] ∧
        List.Forall₂ (fun w a => shape (some w) = .ok a) vs xs := by
  simp only [filledList, bind_ok, array_ok, List.isEmpty_iff]
  refine exists_congr fun vs => and_congr_right fun _ => ?_
  split <;> simp_all [fail, itemsFrom_ok]

theorem only_ok {names : List String} {ms : Named (Json τ)} (h : ∀ m ∈ ms, m.1 ∈ names) :
    only names ms = .ok () := by
  have hnone : ms.filter (fun m => !names.contains m.1) = [] := by
    simpa [List.filter_eq_nil_iff] using h
  rw [only, hnone]
  rfl

theorem strings_ok {v : Option Json} {ss : List String} :
    list string v = .ok ss ↔ v = some (.arr (ss.map .str)) := by
  have hmap (vs : List Json) :
      List.Forall₂ (fun w s => w = Json.str s) vs ss ↔ vs = ss.map .str := by
    rw [← List.forall₂_map_right_iff, List.forall₂_eq_eq_eq]
  simp only [list_ok, string_ok, Option.some.injEq, hmap, exists_eq_right]

theorem filledStrings_ok {v : Option Json} {ss : List String} :
    list filled v = .ok ss ↔ v = some (.arr (ss.map .str)) ∧ "" ∉ ss := by
  have hmap (vs : List Json) :
      List.Forall₂ (fun w s => w = Json.str s ∧ s ≠ "") vs ss ↔ vs = ss.map .str ∧ "" ∉ ss := by
    induction ss generalizing vs with
    | nil => simp
    | cons s ss ih =>
        cases vs with
        | nil => simp
        | cons w vs =>
            rw [List.forall₂_cons, ih, List.map_cons, List.cons.injEq, List.mem_cons, not_or,
              and_and_and_comm, ne_comm]
  simp only [list_ok, filled_ok, Option.some.injEq, hmap]
  exact ⟨fun ⟨_, hv, hvs, hss⟩ => ⟨hvs ▸ hv, hss⟩, fun ⟨hv, hss⟩ => ⟨_, hv, rfl, hss⟩⟩

theorem choice_str [Textual τ] {table : Named α} {a : α} {s : τ}
    (h : table.get? (Textual.whole s) = some a) : choice table (some (.str s)) = .ok a := by
  rw [choice, h]

theorem choice_ok {v : Option Json} {table : Named α} {a : α} :
    choice table v = .ok a ↔ ∃ s, v = some (.str s) ∧ table.get? s = some a := by
  cases v with
  | none => simp [choice, fail]
  | some w =>
      cases w with
      | str s =>
          simp only [choice, Textual.whole, id, Option.some.injEq, Json.str.injEq, exists_eq_left']
          cases table.get? s <;> simp [fail]
      | _ => simp [choice, fail]

theorem orElse_ok {default : α} {shape : Shape α τ} {a : α} :
    orElse default shape v = .ok a ↔
      v = none ∧ a = default ∨ ∃ w, v = some w ∧ shape (some w) = .ok a := by
  cases v <;> simp [orElse, eq_comm]

theorem optional_ok {shape : Shape α τ} {a? : Option α} :
    optional shape v = .ok a? ↔
      v = none ∧ a? = none ∨ ∃ w a, v = some w ∧ shape (some w) = .ok a ∧ a? = some a := by
  cases v with
  | none => simp [optional, eq_comm]
  | some w => simp [optional, map_ok, eq_comm (a := a?)]

theorem only_iff {names : List String} {ms : Named (Json τ)} :
    only names ms = .ok () ↔ ∀ m ∈ ms, m.1 ∈ names := by
  refine ⟨fun h m hm => ?_, only_ok⟩
  by_contra hnot
  have hunknown : m ∈ indexFirst (ms.filter fun m => !names.contains m.1) := by
    rw [mem_indexFirst, List.mem_filter]
    exact ⟨hm, by simpa using hnot⟩
  have hname := List.mem_map_of_mem (f := Prod.fst) hunknown
  unfold only at h
  split at h
  · rename_i hnone
    rw [← Named.names, hnone] at hname
    cases hname
  · cases h

end ToolGate.Json.Shape
