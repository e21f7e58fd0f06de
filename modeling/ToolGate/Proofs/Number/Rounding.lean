import Mathlib.Algebra.Group.Nat.Defs
import ToolGate.Proofs.Number.Order

namespace ToolGate

variable {n m k units : Nat}

theorem unitsPerOne_eq : unitsPerOne = 2 ^ 1074 := by
  -- the exponent is kept general: the power itself is too large to compute with
  have hshift (e : Nat) : 1 <<< e = 2 ^ e := Nat.one_shiftLeft e
  exact hshift 1074

theorem significandLimit_eq : significandLimit = 2 ^ 53 := by
  rw [significandLimit, Nat.one_shiftLeft]

theorem roundUnits_of_dvd (h : 2 ^ (units.log2 - 52) ∣ units) : roundUnits units 1 = units := by
  obtain ⟨m, hm⟩ := h
  have hpos : 0 < 2 ^ (units.log2 - 52) := Nat.two_pow_pos _
  have hrest : units % 2 ^ (units.log2 - 52) = 0 := Nat.mod_eq_zero_of_dvd ⟨m, hm⟩
  have hne : 2 ^ (units.log2 - 52) ≠ 0 := Nat.pos_iff_ne_zero.1 hpos
  simp only [roundUnits, Nat.div_one, Nat.shiftLeft_eq, Nat.one_mul, hrest, Nat.mul_zero,
    Nat.not_lt_zero,
    decide_false, Bool.false_or, beq_eq_false_iff_ne.2 hne, Bool.false_and, Bool.false_eq_true,
    if_false]
  exact Nat.div_mul_cancel ⟨m, hm⟩

theorem roundUnits_of_fits (h : Fits units) : roundUnits units 1 = units := by
  obtain ⟨-, m, e, hm, rfl⟩ := h
  apply roundUnits_of_dvd
  rw [Nat.shiftLeft_eq]
  rw [significandLimit_eq] at hm
  by_cases hzero : m * 2 ^ e = 0
  · rw [hzero]
    exact Nat.dvd_zero _
  rcases Nat.lt_or_eq_of_le hm with hlt | rfl
  · have hlog : (m * 2 ^ e).log2 < 53 + e := by
      rw [Nat.log2_lt hzero, Nat.pow_add]
      exact Nat.mul_lt_mul_of_pos_right hlt (Nat.two_pow_pos e)
    exact Nat.dvd_mul_left_of_dvd (Nat.pow_dvd_pow 2 (by omega)) m
  · -- the significand with one digit too many is a power of two
    rw [← Nat.pow_add, Nat.log2_two_pow]
    exact Nat.pow_dvd_pow 2 (by omega)

theorem pow_le_roundUnits (h : 2 ^ k ≤ units) : 2 ^ k ≤ roundUnits units 1 := by
  have hne : units ≠ 0 := by
    rintro rfl
    exact absurd (Nat.two_pow_pos k) (by omega)
  have hfloor : 2 ^ k ≤ units / 2 ^ (units.log2 - 52) * 2 ^ (units.log2 - 52) := by
    rcases Nat.le_total k (units.log2 - 52) with hk | hk
    · have hone : 2 ^ (units.log2 - 52) ≤ units :=
        Nat.le_trans (Nat.pow_le_pow_right (by decide) (Nat.sub_le _ _)) (Nat.log2_self_le hne)
      calc 2 ^ k ≤ 1 * 2 ^ (units.log2 - 52) := by
            rw [Nat.one_mul]
            exact Nat.pow_le_pow_right (by decide) hk
        _ ≤ _ := Nat.mul_le_mul_right _ (Nat.div_pos hone (Nat.two_pow_pos _))
    · have hsplit : 2 ^ k = 2 ^ (k - (units.log2 - 52)) * 2 ^ (units.log2 - 52) := by
        rw [← Nat.pow_add, Nat.sub_add_cancel hk]
      rw [hsplit] at h ⊢
      exact Nat.mul_le_mul_right _ ((Nat.le_div_iff_mul_le (Nat.two_pow_pos _)).2 h)
  simp only [roundUnits, Nat.div_one, Nat.shiftLeft_eq, Nat.one_mul]
  refine Nat.le_trans hfloor (Nat.mul_le_mul_right _ ?_)
  split
  · exact Nat.le_succ _
  · exact Nat.le_refl _

theorem pow_mul_le_roundUnits {e : Nat} (h : 2 ^ k ≤ n) :
    2 ^ k * 2 ^ e ≤ roundUnits (n * 2 ^ e) 1 := by
  rw [← Nat.pow_add]
  apply pow_le_roundUnits
  rw [Nat.pow_add]
  exact Nat.mul_le_mul_right _ h

theorem mul_two_pow_lt {e top : Nat} (h : n ≤ 2 ^ k) (ht : k + e < top) :
    n * 2 ^ e < 2 ^ top := by
  calc n * 2 ^ e ≤ 2 ^ k * 2 ^ e := Nat.mul_le_mul_right _ h
    _ = 2 ^ (k + e) := (Nat.pow_add ..).symm
    _ < 2 ^ top := Nat.pow_lt_pow_right Nat.one_lt_two ht

theorem fits_nat (h : n ≤ significandLimit) : Fits (n * unitsPerOne) := by
  refine ⟨?_, n, 1074, h, ?_⟩
  · rw [significandLimit_eq] at h
    rw [unitsPerOne_eq, unitsLimit, Nat.one_shiftLeft]
    exact mul_two_pow_lt (e := 1074) h (by decide)
  · rw [unitsPerOne_eq, Nat.shiftLeft_eq]

namespace Number

theorem ofRatio_of_fits {negative : Bool} (h : Fits units) :
    ofRatio negative units 1 = .finite negative units h := by
  simp [ofRatio, roundUnits_of_fits h, h.1]

theorem ofNat_eq_ofRatio (n : Nat) : ofNat n = ofRatio false (n * unitsPerOne) 1 := by
  have hsign : ¬(n : Int) < 0 := by omega
  simp [ofNat, ofInt, hsign]

theorem ofNat_eq (h : n ≤ significandLimit) :
    ofNat n = .finite false (n * unitsPerOne) (fits_nat h) := by
  rw [ofNat_eq_ofRatio, ofRatio_of_fits]

theorem zero_eq : (0 : Number) = zero := by
  have h : ofNat 0 = ofRatio false (0 * unitsPerOne) 1 := ofNat_eq_ofRatio 0
  rw [Nat.zero_mul, ofRatio_of_fits fits_zero] at h
  exact h

end Number

end ToolGate
