import ToolGate.Proofs.Number.Rounding

namespace ToolGate

theorem roundUnits_mul_right {c : Nat} (hc : 0 < c) (num den : Nat) :
    roundUnits (num * c) (den * c) = roundUnits num den := by
  have hscale (s : Nat) : (den * c) <<< s = den <<< s * c := by
    rw [Nat.shiftLeft_eq, Nat.shiftLeft_eq, Nat.mul_right_comm]
  have hrest (m : Nat) : 2 * (num * c % (m * c)) = 2 * (num % m) * c := by
    rw [Nat.mul_mod_mul_right, Nat.mul_assoc]
  have hbeq (m r : Nat) : (m * c == r * c) = (m == r) := by
    rw [Bool.eq_iff_iff, beq_iff_eq, beq_iff_eq, Nat.mul_left_inj (Nat.pos_iff_ne_zero.1 hc)]
  simp only [roundUnits, Nat.mul_div_mul_right _ _ hc, hscale, hrest, hbeq,
    Nat.mul_lt_mul_right hc]

theorem roundUnits_of_lt {num den : Nat} (h : 2 * num < den) : roundUnits num den = 0 := by
  have hless : num < den := by omega
  have hfloor : num / den = 0 := Nat.div_eq_of_lt hless
  have hdown : ¬den < 2 * num := by omega
  simp [roundUnits, hfloor, Nat.mod_eq_of_lt hless, hdown]

namespace Number

theorem ofRatio_mul_right {c : Nat} (hc : 0 < c) (negative : Bool) (num den : Nat) :
    ofRatio negative (num * c) (den * c) = ofRatio negative num den := by
  simp only [ofRatio, roundUnits_mul_right hc]

theorem two_pow_le_ten_pow {k e : Nat} (h : k ≤ 3 * e) : 2 ^ k ≤ 10 ^ e := by
  calc 2 ^ k ≤ 2 ^ (3 * e) := Nat.pow_le_pow_right (by decide) h
    _ = (2 ^ 3) ^ e := Nat.pow_mul ..
    _ ≤ 10 ^ e := Nat.pow_le_pow_left (by decide) e

theorem ofRatio_of_large {digits e : Nat} (hd : 0 < digits) (he : 400 < e) (negative : Bool) :
    ofRatio negative (digits * 10 ^ e * unitsPerOne) 1 = .infinite negative := by
  have htop : topExponent - 1074 ≤ 3 * e := by
    simp only [topExponent]
    omega
  have hlimit : unitsLimit = 2 ^ (topExponent - 1074) * 2 ^ 1074 := by
    rw [unitsLimit, Nat.one_shiftLeft, ← Nat.pow_add, Nat.sub_add_cancel (by decide)]
  have hpow : 2 ^ (topExponent - 1074) ≤ digits * 10 ^ e :=
    Nat.le_trans (two_pow_le_ten_pow htop) (Nat.le_mul_of_pos_left _ hd)
  have hover : ¬roundUnits (digits * 10 ^ e * unitsPerOne) 1 < unitsLimit := by
    rw [Nat.not_lt, hlimit, unitsPerOne_eq]
    exact pow_mul_le_roundUnits hpow
  rw [ofRatio, dif_neg hover]

theorem ofRatio_of_small {digits e : Nat} (he : 400 + digits.log2 < e) (negative : Bool) :
    ofRatio negative (digits * unitsPerOne) (10 ^ (e + 1)) = ofRatio negative 0 1 := by
  have hless : 2 * (digits * unitsPerOne) < 10 ^ (e + 1) := by
    calc 2 * (digits * unitsPerOne) < 2 * (2 ^ (digits.log2 + 1) * unitsPerOne) :=
          Nat.mul_lt_mul_of_pos_left
            (Nat.mul_lt_mul_of_pos_right Nat.lt_log2_self unitsPerOne_pos) (by decide)
      _ = 2 ^ (1 + (digits.log2 + 1 + 1074)) := by
          rw [unitsPerOne_eq, Nat.pow_add 2 1, Nat.pow_add 2 (digits.log2 + 1)]
      _ ≤ 10 ^ (e + 1) := two_pow_le_ten_pow (by omega)
  simp only [ofRatio, roundUnits_of_lt hless, roundUnits_of_fits fits_zero]

theorem ofDecimal_eq_ofRatio (negative : Bool) (digits : Nat) (exponent : Int) :
    ofDecimal negative digits exponent =
      ofRatio negative (digits * 10 ^ exponent.toNat * unitsPerOne) (10 ^ (-exponent).toNat) := by
  cases exponent with
  | ofNat e =>
      have hnum : (Int.ofNat e).toNat = e := rfl
      have hden : (-Int.ofNat e).toNat = 0 := by
        simp only [Int.ofNat_eq_natCast]
        omega
      rw [hnum, hden, Nat.pow_zero, ofDecimal]
      by_cases hzero : digits = 0
      · simp [hzero]
      · rw [if_neg hzero]
        split
        · exact (ofRatio_of_large (Nat.pos_of_ne_zero hzero) ‹_› negative).symm
        · rfl
  | negSucc e =>
      have hnum : (Int.negSucc e).toNat = 0 := rfl
      have hden : (-Int.negSucc e).toNat = e + 1 := rfl
      rw [hnum, hden, Nat.pow_zero, Nat.mul_one, ofDecimal]
      split
      · exact (ofRatio_of_small ‹_› negative).symm
      · rfl

theorem ofDecimal_mul_ten (negative : Bool) (digits : Nat) (exponent : Int) :
    ofDecimal negative (digits * 10) exponent = ofDecimal negative digits (exponent + 1) := by
  rw [ofDecimal_eq_ofRatio, ofDecimal_eq_ofRatio]
  rcases Int.lt_or_le exponent 0 with h | h
  · -- the ten is taken from under the line
    have hnum : exponent.toNat = 0 ∧ (exponent + 1).toNat = 0 := by omega
    have hden : (-exponent).toNat = (-(exponent + 1)).toNat + 1 := by omega
    rw [hnum.1, hnum.2, hden, Nat.pow_succ, Nat.pow_zero, Nat.mul_one, Nat.mul_one,
      Nat.mul_right_comm, ofRatio_mul_right (by decide)]
  · have hnum : (exponent + 1).toNat = exponent.toNat + 1 := by omega
    have hden : (-exponent).toNat = 0 ∧ (-(exponent + 1)).toNat = 0 := by omega
    rw [hnum, hden.1, hden.2, Nat.pow_succ, Nat.mul_assoc digits 10, Nat.mul_comm 10]

theorem ofDecimal_mul_ten_pow (negative : Bool) (digits k : Nat) (exponent : Int) :
    ofDecimal negative (digits * 10 ^ k) exponent = ofDecimal negative digits (exponent + k) := by
  induction k generalizing exponent with
  | zero => simp
  | succ k ih =>
      rw [Nat.pow_succ, ← Nat.mul_assoc, ofDecimal_mul_ten, ih]
      congr 1
      omega

theorem ofRatio_of_round {num den units : Nat} (h : roundUnits num den = units) (fits : Fits units)
    (negative : Bool) : ofRatio negative num den = .finite negative units fits := by
  subst h
  rw [ofRatio, dif_pos fits.1]

theorem round_of_ofRatio {negative a : Bool} {num den units : Nat} {fits : Fits units}
    (h : ofRatio negative num den = .finite a units fits) : roundUnits num den = units := by
  unfold ofRatio at h
  split at h
  · cases h
    rfl
  · cases h

theorem ofDecimal_of_readsBack {digits units : Nat} {exponent : Int} (fits : Fits units)
    (h : readsBack units exponent digits) (negative : Bool) :
    ofDecimal negative digits exponent = .finite negative units fits := by
  unfold readsBack at h
  split at h
  · rename_i u _ hu
    obtain rfl : u = units := by simpa using h
    rw [ofDecimal_eq_ofRatio] at hu ⊢
    exact ofRatio_of_round (round_of_ofRatio hu) fits negative
  · cases h

theorem ofDecimal_expansion {units k : Nat} {exponent : Int} (fits : Fits units)
    (hk : unitsPerOne = 2 ^ k) (hexponent : exponent = -(k : Int)) (negative : Bool) :
    ofDecimal negative (units * Nat.pow 5 k) exponent = .finite negative units fits := by
  -- the power of five and the units in one make a power of ten
  have hnum : units * Nat.pow 5 k * unitsPerOne = units * 10 ^ k := by
    rw [Nat.pow_eq, hk, Nat.mul_assoc, ← Nat.mul_pow]
  have hpos : exponent.toNat = 0 ∧ (-exponent).toNat = k := by omega
  have hcancel := ofRatio_mul_right (c := 10 ^ k) (Nat.pow_pos (by decide)) negative units 1
  rw [Nat.one_mul, ofRatio_of_fits fits] at hcancel
  rw [ofDecimal_eq_ofRatio, hpos.1, hpos.2, Nat.pow_zero, Nat.mul_one, hnum, hcancel]

theorem ofDecimal_shortest {units digits : Nat} {exponent : Int} (fits : Fits units)
    (h : shortest units = (digits, exponent)) (negative : Bool) :
    ofDecimal negative digits exponent = .finite negative units fits := by
  have hscan (place : Int) (fuel count : Nat)
      (h : shortestFrom units place count fuel = (digits, exponent)) :
      ofDecimal negative digits exponent = .finite negative units fits := by
    induction fuel generalizing count with
    | zero =>
        obtain ⟨hdigits, hexponent⟩ := Prod.mk.inj h
        have hunits := unitsPerOne_eq
        have hplaces : exponent = -((1074 : Nat) : Int) := hexponent.symm
        -- the exponent is kept general: the powers are too large to compute with
        generalize (1074 : Nat) = k at hdigits hunits hplaces
        rw [← hdigits]
        exact ofDecimal_expansion fits hunits hplaces negative
    | succ fuel ih =>
        rw [shortestFrom] at h
        split at h
        · cases h
          exact ofDecimal_of_readsBack fits (List.find?_some ‹_›) negative
        · exact ih (count + 1) h
  exact hscan (placeOf units) 17 1 h

end Number

end ToolGate
