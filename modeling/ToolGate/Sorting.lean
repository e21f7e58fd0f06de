namespace ToolGate

variable {α : Type}

def insertSorted (le : α → α → Bool) (a : α) : List α → List α
  | [] => [a]
  | b :: bs => if le a b then a :: b :: bs else b :: insertSorted le a bs

def sortBy (le : α → α → Bool) (xs : List α) : List α :=
  xs.foldr (insertSorted le) []

theorem insertSorted_perm (le : α → α → Bool) (a : α) (xs : List α) :
    (insertSorted le a xs).Perm (a :: xs) := by
  induction xs with
  | nil => exact .refl _
  | cons b bs ih =>
      rw [insertSorted]
      split
      · exact .refl _
      · exact (ih.cons b).trans (.swap a b bs)

theorem sortBy_perm (le : α → α → Bool) (xs : List α) : (sortBy le xs).Perm xs := by
  induction xs with
  | nil => exact .refl _
  | cons a as ih => exact (insertSorted_perm le a _).trans (ih.cons a)

theorem mem_sortBy (le : α → α → Bool) (x : α) (xs : List α) : x ∈ sortBy le xs ↔ x ∈ xs :=
  (sortBy_perm le xs).mem_iff

theorem pairwise_insertSorted {le : α → α → Bool} (total : ∀ a b, le a b ∨ le b a)
    (trans : ∀ a b c, le a b → le b c → le a c) (a : α) {xs : List α}
    (h : xs.Pairwise (le · ·)) : (insertSorted le a xs).Pairwise (le · ·) := by
  induction xs with
  | nil => exact List.pairwise_singleton _ _
  | cons b bs ih =>
      rw [List.pairwise_cons] at h
      rw [insertSorted]
      split
      · rename_i hab
        refine List.pairwise_cons.2 ⟨fun c hc => ?_, List.pairwise_cons.2 h⟩
        cases hc with
        | head => exact hab
        | tail _ hc => exact trans a b c hab (h.1 c hc)
      · rename_i hab
        refine List.pairwise_cons.2 ⟨fun c hc => ?_, ih h.2⟩
        cases (insertSorted_perm le a bs).mem_iff.1 hc with
        | head => exact (total a b).resolve_left hab
        | tail _ hc => exact h.1 c hc

theorem pairwise_sortBy {le : α → α → Bool} (total : ∀ a b, le a b ∨ le b a)
    (trans : ∀ a b c, le a b → le b c → le a c) (xs : List α) :
    (sortBy le xs).Pairwise (le · ·) := by
  induction xs with
  | nil => exact .nil
  | cons a as ih => exact pairwise_insertSorted total trans a ih

theorem insertSorted_of_le {le : α → α → Bool} {a : α} {xs : List α} (h : ∀ b ∈ xs, le a b) :
    insertSorted le a xs = a :: xs := by
  cases xs with
  | nil => rfl
  | cons b bs => exact if_pos (h b List.mem_cons_self)

theorem filter_insertSorted {le : α → α → Bool} (trans : ∀ a b c, le a b → le b c → le a c)
    (p : α → Bool) (a : α) {xs : List α} (h : xs.Pairwise (le · ·)) :
    (insertSorted le a xs).filter p =
      if p a then insertSorted le a (xs.filter p) else xs.filter p := by
  induction xs with
  | nil => cases hp : p a <;> simp [insertSorted, hp]
  | cons b bs ih =>
      obtain ⟨hb, hbs⟩ := List.pairwise_cons.1 h
      rw [insertSorted]
      split
      case isTrue hab =>
        have hle : ∀ c ∈ (b :: bs).filter p, le a c := by
          intro c hc
          obtain rfl | hc := List.mem_cons.1 (List.mem_filter.1 hc).1
          · exact hab
          · exact trans a b c hab (hb c hc)
        rw [insertSorted_of_le hle, List.filter_cons]
      case isFalse hab =>
        have hrest := ih hbs
        cases hp : p b with
        | false => simpa [hp] using hrest
        | true => cases ha : p a <;> simp_all [insertSorted]

theorem filter_sortBy {le : α → α → Bool} (total : ∀ a b, le a b ∨ le b a)
    (trans : ∀ a b c, le a b → le b c → le a c) (p : α → Bool) (xs : List α) :
    (sortBy le xs).filter p = sortBy le (xs.filter p) := by
  induction xs with
  | nil => rfl
  | cons a as ih =>
      have hsorted := pairwise_sortBy total trans as
      have hinsert : (sortBy le (a :: as)).filter p =
          (insertSorted le a (sortBy le as)).filter p := rfl
      rw [hinsert, filter_insertSorted trans p a hsorted, ih, List.filter_cons]
      split <;> rfl

end ToolGate
