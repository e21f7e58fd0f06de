import ToolGate.Text.Units

namespace ToolGate.Text

variable {as bs cs ds : List Nat} {a b : String} {xs : List String}

theorem unitsLe_refl (as : List Nat) : unitsLe as as := by
  induction as with
  | nil => rfl
  | cons a as ih => simp [unitsLe, ih]

theorem unitsLe_total (as bs : List Nat) : unitsLe as bs ∨ unitsLe bs as := by
  induction as generalizing bs with
  | nil => simp [unitsLe]
  | cons a as ih =>
      cases bs with
      | nil => simp [unitsLe]
      | cons b bs =>
          have hrest := ih bs
          simp only [unitsLe, Bool.or_eq_true, decide_eq_true_eq, Bool.and_eq_true, beq_iff_eq]
          rcases Nat.lt_trichotomy a b with h | rfl | h
          · exact .inl (.inl h)
          · simpa using hrest
          · exact .inr (.inl h)

theorem unitsLe_trans (hab : unitsLe as bs) (hbc : unitsLe bs cs) : unitsLe as cs := by
  induction as generalizing bs cs with
  | nil => rfl
  | cons a as ih =>
      cases bs with
      | nil => cases hab
      | cons b bs =>
          cases cs with
          | nil => cases hbc
          | cons c cs =>
              simp only [unitsLe, Bool.or_eq_true, decide_eq_true_eq, Bool.and_eq_true,
                beq_iff_eq] at *
              rcases hab with hlt | ⟨rfl, hle⟩
              · rcases hbc with hlt' | ⟨rfl, -⟩
                · exact .inl (Nat.lt_trans hlt hlt')
                · exact .inl hlt
              · rcases hbc with hlt' | ⟨rfl, hle'⟩
                · exact .inl hlt'
                · exact .inr ⟨rfl, ih hle hle'⟩

theorem unitsLe_antisymm (hab : unitsLe as bs) (hba : unitsLe bs as) : as = bs := by
  induction as generalizing bs with
  | nil =>
      cases bs with
      | nil => rfl
      | cons b bs => cases hba
  | cons a as ih =>
      cases bs with
      | nil => cases hab
      | cons b bs =>
          simp only [unitsLe, Bool.or_eq_true, decide_eq_true_eq, Bool.and_eq_true,
            beq_iff_eq] at hab hba
          obtain hlt | ⟨rfl, hle⟩ := hab
          · omega
          · obtain hlt | ⟨-, hle'⟩ := hba
            · exact absurd hlt (Nat.lt_irrefl a)
            · rw [ih hle hle']

theorem unitsLe_append_left (ps as bs : List Nat) :
    unitsLe (ps ++ as) (ps ++ bs) = unitsLe as bs := by
  induction ps with
  | nil => rfl
  | cons p ps ih => simp [unitsLe, ih]

theorem unitsLe_append_of_ne (hlength : as.length = bs.length) (hne : as ≠ bs) :
    unitsLe (as ++ cs) (bs ++ ds) = unitsLe as bs := by
  induction as generalizing bs with
  | nil =>
      cases bs with
      | nil => exact absurd rfl hne
      | cons b bs => cases hlength
  | cons a as ih =>
      cases bs with
      | nil => cases hlength
      | cons b bs =>
          simp only [List.cons_append, unitsLe]
          by_cases h : a = b
          · subst h
            rw [ih (by simpa using hlength) (by simpa using hne)]
          · have hbeq : (a == b) = false := by simpa using h
            simp [hbeq]

theorem units_append (a b : String) : units (a ++ b) = units a ++ units b := by
  rw [units, String.toList_append, List.flatMap_append]
  rfl

theorem charUnits_append_inj {c d : Char} (h : charUnits c ++ as = charUnits d ++ bs) :
    c = d ∧ as = bs := by
  have hc : c.toNat < 0xD800 ∨ 0xDFFF < c.toNat ∧ c.toNat < 0x110000 := c.valid
  have hd : d.toNat < 0xD800 ∨ 0xDFFF < d.toNat ∧ d.toNat < 0x110000 := d.valid
  unfold charUnits at h
  split at h <;> split at h <;>
    simp only [List.cons_append, List.nil_append, List.cons.injEq] at h
  · exact ⟨Char.toNat_inj.1 h.1, h.2⟩
  · omega
  · omega
  · obtain ⟨hhigh, hlow, hrest⟩ := h
    exact ⟨Char.toNat_inj.1 (by omega), hrest⟩

theorem units_inj : units a = units b ↔ a = b := by
  refine ⟨fun h => String.toList_inj.1 ?_, congrArg units⟩
  unfold units at h
  generalize a.toList = cs at h ⊢
  generalize b.toList = ds at h ⊢
  have hfirst (c : Char) : charUnits c ≠ [] := by
    unfold charUnits
    split <;> exact List.cons_ne_nil _ _
  induction cs generalizing ds with
  | nil =>
      cases ds with
      | nil => rfl
      | cons d ds => exact absurd (List.append_eq_nil_iff.1 h.symm).1 (hfirst d)
  | cons c cs ih =>
      cases ds with
      | nil => exact absurd (List.append_eq_nil_iff.1 h).1 (hfirst c)
      | cons d ds =>
          obtain ⟨rfl, hrest⟩ := charUnits_append_inj h
          rw [ih ds hrest]

theorem le_antisymm (hab : le a b) (hba : le b a) : a = b :=
  units_inj.1 (unitsLe_antisymm hab hba)

theorem sort_perm (xs : List String) : (sort xs).Perm xs := by
  have hperm := (sortBy_perm (fun a b : List Nat × String => unitsLe a.1 b.1)
    (xs.map fun s => (units s, s))).map Prod.snd
  have hmap : (xs.map fun s => (units s, s)).map Prod.snd = xs := by
    rw [List.map_map]
    exact List.map_id xs
  rwa [hmap] at hperm

theorem mem_sort : a ∈ sort xs ↔ a ∈ xs :=
  (sort_perm xs).mem_iff

theorem pairwise_sort (xs : List String) : (sort xs).Pairwise (le · ·) := by
  have htotal (a b : List Nat × String) : unitsLe a.1 b.1 ∨ unitsLe b.1 a.1 := unitsLe_total _ _
  have hsorted := pairwise_sortBy htotal (fun _ _ _ => unitsLe_trans)
    (xs.map fun s => (units s, s))
  rw [sort, List.pairwise_map]
  apply hsorted.imp_of_mem
  -- every pair that is sorted holds a text behind its own units
  intro x y hx hy hle
  simp only [mem_sortBy, List.mem_map] at hx hy
  obtain ⟨a, -, rfl⟩ := hx
  obtain ⟨b, -, rfl⟩ := hy
  exact hle

theorem sort_inj {xs ys : List String} : sort xs = sort ys ↔ xs.Perm ys := by
  constructor
  · intro h
    exact (sort_perm xs).symm.trans (h ▸ sort_perm ys)
  · intro h
    have hperm : (sort xs).Perm (sort ys) := (sort_perm xs).trans (h.trans (sort_perm ys).symm)
    exact hperm.eq_of_pairwise (fun a b _ _ => le_antisymm) (pairwise_sort xs) (pairwise_sort ys)

theorem filter_sort (p : String → Bool) (xs : List String) :
    (sort xs).filter p = sort (xs.filter p) := by
  have htotal (a b : List Nat × String) : unitsLe a.1 b.1 ∨ unitsLe b.1 a.1 := unitsLe_total _ _
  have hfilter := filter_sortBy htotal (fun _ _ _ => unitsLe_trans) (p ∘ Prod.snd)
    (xs.map fun s => (units s, s))
  have hkept : (xs.map fun s => (units s, s)).filter (p ∘ Prod.snd) =
      (xs.filter p).map fun s => (units s, s) := List.filter_map
  rw [sort, List.filter_map, hfilter, hkept]
  rfl

theorem le_of_first {c d : Char} (ha : a.toList.head? = some c) (hb : b.toList.head? = some d)
    (hd : d.toNat < 0x10000) (h : c.toNat < d.toNat) : le a b ∧ le b a = false := by
  have hunits {s : String} {c : Char} (hs : s.toList.head? = some c) (hc : c.toNat < 0x10000) :
      ∃ us, units s = c.toNat :: us := by
    obtain ⟨cs, hcs⟩ := List.head?_eq_some_iff.1 hs
    rw [units, hcs, List.flatMap_cons, charUnits, if_pos hc]
    exact ⟨_, rfl⟩
  obtain ⟨us, hus⟩ := hunits ha (Nat.lt_trans h hd)
  obtain ⟨vs, hvs⟩ := hunits hb hd
  have hback : ¬d.toNat < c.toNat := Nat.not_lt_of_le (Nat.le_of_lt h)
  rw [le, le, hus, hvs]
  simp [unitsLe, h, hback, Nat.ne_of_gt h]

def IsBasic (s : String) : Prop :=
  ∀ c ∈ s.toList, c.toNat < 0x10000

theorem units_of_isBasic (h : IsBasic a) : units a = a.toList.map Char.toNat := by
  unfold units
  unfold IsBasic at h
  generalize a.toList = cs at h ⊢
  induction cs with
  | nil => rfl
  | cons c cs ih =>
      obtain ⟨hc, hcs⟩ := List.forall_mem_cons.1 h
      rw [List.flatMap_cons, ih hcs, charUnits, if_pos hc]
      rfl

theorem lex_of_unitsLe {xs ys : List Char} (h : unitsLe (xs.map Char.toNat) (ys.map Char.toNat))
    (hne : xs ≠ ys) : List.Lex (· < ·) xs ys := by
  induction xs generalizing ys with
  | nil =>
      cases ys with
      | nil => exact absurd rfl hne
      | cons y ys => exact .nil
  | cons x xs ih =>
      cases ys with
      | nil => cases h
      | cons y ys =>
          simp only [List.map_cons, unitsLe, Bool.or_eq_true, decide_eq_true_eq, Bool.and_eq_true,
            beq_iff_eq, Char.toNat_inj] at h
          rcases h with hlt | ⟨rfl, hle⟩
          · exact .rel hlt
          · exact .cons (ih hle (by simpa using hne))

theorem lex_of_le (ha : IsBasic a) (hb : IsBasic b) (h : le a b) (hne : a ≠ b) :
    List.Lex (· < ·) a.toList b.toList := by
  rw [le, units_of_isBasic ha, units_of_isBasic hb] at h
  exact lex_of_unitsLe h fun heq => hne (String.toList_inj.1 heq)

end ToolGate.Text
