import Mathlib.Data.Nat.Init
import ToolGate.Number.Decimal

namespace ToolGate.Number

theorem unitsPerOne_pos : 0 < unitsPerOne := by
  rw [unitsPerOne, Nat.one_shiftLeft]
  exact Nat.two_pow_pos 1074

theorem lt_iff (a b : Number) : a < b ↔ a.lt b = true := .rfl

theorem le_iff (a b : Number) : a ≤ b ↔ a.le b = true := .rfl

theorem not_lt {a b : Number} (ha : a ≠ .nan) (hb : b ≠ .nan) : ¬a < b ↔ b ≤ a := by
  rw [lt_iff, le_iff]
  cases a with
  | nan => exact absurd rfl ha
  | infinite s => cases b <;> cases s <;> simp_all [lt, le]
  | finite => cases b <;> simp_all [lt, le]

theorem not_le {a b : Number} (ha : a ≠ .nan) (hb : b ≠ .nan) : ¬a ≤ b ↔ b < a := by
  rw [← not_lt hb ha, Classical.not_not]

theorem lt_irrefl (a : Number) : ¬a < a := by
  rw [lt_iff]
  cases a <;> simp [lt]

theorem le_trans {a b c : Number} (hab : a ≤ b) (hbc : b ≤ c) : a ≤ c := by
  rw [le_iff] at *
  cases a <;> cases b <;> cases c <;> simp_all [le] <;> grind

theorem lt_trans {a b c : Number} (hab : a < b) (hbc : b < c) : a < c := by
  rw [lt_iff] at *
  cases a <;> cases b <;> cases c <;> simp_all [lt]
  grind

theorem leNat_of_le {a b : Number} {n : Nat} (h : a ≤ b) (hb : b.leNat n) : a.leNat n := by
  rw [le_iff] at h
  cases a <;> cases b <;> simp_all [le, leNat]
  grind

theorem ltNat_of_leNat {x : Number} {m n : Nat} (hx : x.leNat m) (h : m < n) : x.ltNat n := by
  cases x with
  | nan => simp [leNat] at hx
  | infinite a => simpa [leNat, ltNat] using hx
  | finite a u _ =>
      have hmul : m * unitsPerOne < n * unitsPerOne :=
        Nat.mul_lt_mul_of_pos_right h unitsPerOne_pos
      simp only [leNat, ltNat, decide_eq_true_eq] at *
      omega

theorem leNat_of_ltNat_succ {x : Number} {n : Nat} (hi : x.isInteger) (hx : x.ltNat (n + 1)) :
    x.leNat n := by
  cases x with
  | nan => simp [isInteger] at hi
  | infinite a => simpa [leNat, ltNat] using hx
  | finite a u _ =>
      have hdvd : unitsPerOne ∣ u := Nat.dvd_of_mod_eq_zero (by simpa [isInteger] using hi)
      have hpos := unitsPerOne_pos
      simp only [leNat, ltNat, decide_eq_true_eq] at *
      -- the size of a unit is of no account, and too large to compute with
      generalize unitsPerOne = one at *
      obtain ⟨k, rfl⟩ := hdvd
      cases a with
      | true =>
          simp only [signedUnits, if_true] at *
          omega
      | false =>
          simp only [signedUnits, Bool.false_eq_true, if_false, Int.ofNat_lt, Int.ofNat_le] at *
          rw [Nat.mul_comm] at hx ⊢
          exact Nat.mul_le_mul_right one (Nat.le_of_lt_succ (Nat.lt_of_mul_lt_mul_right hx))

theorem signedUnits_of_integer? {x : Number} {i : Int} (h : x.integer? = some i) :
    ∃ a u fits, x = .finite a u fits ∧ signedUnits a u = i * (unitsPerOne : Nat) := by
  cases x with
  | nan => simp [integer?, isInteger] at h
  | infinite a => simp [integer?, isInteger] at h
  | finite a u fits =>
      refine ⟨a, u, fits, rfl, ?_⟩
      simp only [integer?, isInteger, truncated?] at h
      by_cases hdvd : u % unitsPerOne = 0
      · obtain ⟨k, rfl⟩ := Nat.dvd_of_mod_eq_zero hdvd
        simp only [hdvd, BEq.rfl, if_true, Nat.mul_div_cancel_left k unitsPerOne_pos,
          Option.some.injEq] at h
        subst h
        have hmul : ((unitsPerOne * k : Nat) : Int) = k * (unitsPerOne : Nat) := by
          rw [Int.natCast_mul, Int.mul_comm]
        cases a with
        | false => exact hmul
        | true => simp only [signedUnits, if_true, hmul, Int.neg_mul]
      · simp [hdvd] at h

theorem integer?_of_natural? {x : Number} {n : Nat} (h : x.natural? = some n) :
    x.integer? = some n := by
  unfold natural? at h
  split at h
  · cases h
    assumption
  · cases h

theorem isInteger_of_integer? {x : Number} {i : Int} (h : x.integer? = some i) : x.isInteger := by
  unfold integer? at h
  split at h
  · assumption
  · cases h

theorem signedUnits_of_natural? {x : Number} {n : Nat} (h : x.natural? = some n) :
    ∃ a u fits, x = .finite a u fits ∧ signedUnits a u = (n * unitsPerOne : Nat) := by
  rw [Int.natCast_mul]
  exact signedUnits_of_integer? (integer?_of_natural? h)

theorem leNat_iff {x : Number} {n k : Nat} (h : x.natural? = some n) : x.leNat k ↔ n ≤ k := by
  obtain ⟨a, u, fits, rfl, hu⟩ := signedUnits_of_natural? h
  rw [leNat, hu, decide_eq_true_eq, Int.ofNat_le]
  exact Nat.mul_le_mul_right_iff unitsPerOne_pos

theorem ltNat_iff_int {x : Number} {i : Int} {k : Nat} (h : x.integer? = some i) :
    x.ltNat k ↔ i < k := by
  obtain ⟨a, u, fits, rfl, hu⟩ := signedUnits_of_integer? h
  rw [ltNat, hu, decide_eq_true_eq, Int.natCast_mul]
  exact Int.mul_lt_mul_right (Int.ofNat_lt.2 unitsPerOne_pos)

theorem ltNat_iff {x : Number} {n k : Nat} (h : x.natural? = some n) : x.ltNat k ↔ n < k := by
  rw [ltNat_iff_int (integer?_of_natural? h), Int.ofNat_lt]

theorem apply_key {β : Type} {f : Number → β} (h : ∀ fits, f (.finite true 0 fits) = f zero)
    (x : Number) : f x.key = f x := by
  unfold key
  split
  · rename_i fits
    exact (h fits).symm
  · rfl

theorem key_lt (a b : Number) : a.key < b ↔ a < b := by
  have hlt : a.key.lt b = a.lt b := apply_key (f := (lt · b)) (fun _ => by cases b <;> rfl) a
  rw [lt_iff, lt_iff, hlt]

theorem lt_key (a b : Number) : a < b.key ↔ a < b := by
  have hlt : a.lt b.key = a.lt b := apply_key (f := lt a) (fun _ => by cases a <;> rfl) b
  rw [lt_iff, lt_iff, hlt]

theorem key_le (a b : Number) : a.key ≤ b ↔ a ≤ b := by
  have hle : a.key.le b = a.le b := apply_key (f := (le · b)) (fun _ => by cases b <;> rfl) a
  rw [le_iff, le_iff, hle]

theorem le_key (a b : Number) : a ≤ b.key ↔ a ≤ b := by
  have hle : a.le b.key = a.le b := apply_key (f := le a) (fun _ => by cases a <;> rfl) b
  rw [le_iff, le_iff, hle]

theorem isSafeInteger_key (x : Number) : x.key.isSafeInteger = x.isSafeInteger :=
  apply_key (fun _ => rfl) x

theorem key_key (x : Number) : x.key.key = x.key :=
  apply_key (fun _ => rfl) x

theorem eq_of_key_eq {x y : Number} {n : Nat} (hx : x.natural? = some n) (hn : 0 < n)
    (h : y.key = x.key) : y = x := by
  have hzero : zero.natural? = some 0 := rfl
  have hxkey : x.key = x := by
    unfold key
    split
    · cases hx
      cases hn
    · rfl
  rw [hxkey] at h
  unfold key at h
  split at h
  · subst h
    cases hzero.symm.trans hx
    cases hn
  · exact h

end ToolGate.Number
