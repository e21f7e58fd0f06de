import ToolGate.Proofs.Number.Digits
import ToolGate.Proofs.Number.Scaling

namespace ToolGate

namespace Numeral

open Number

variable {x : Numeral} {ds rest : List Char}

def signChars (negative : Bool) : List Char := if negative then ['-'] else []

def pointChars (fraction : List Char) : List Char := if fraction = [] then [] else '.' :: fraction

def exponentChars (e : Int) : List Char := if e = 0 then [] else 'e' :: exponentText e

def chars (x : Numeral) : List Char :=
  signChars x.negative ++ (x.whole ++ (pointChars x.fraction ++ exponentChars x.exponent))

structure Proper (x : Numeral) : Prop where
  leading : x.whole ≠ []
  whole : ∀ c ∈ x.whole, c.isDigit
  fraction : ∀ c ∈ x.fraction, c.isDigit
  canonical : x.isCanonical

theorem split_digits (hds : ∀ c ∈ ds, c.isDigit) (hrest : ∀ c ∈ rest.head?, ¬c.isDigit) :
    (ds ++ rest).takeWhile Char.isDigit = ds ∧ (ds ++ rest).dropWhile Char.isDigit = rest := by
  rw [List.takeWhile_append_of_pos hds, List.dropWhile_append_of_pos hds]
  cases rest with
  | nil => simp
  | cons c cs =>
      have hc : ¬c.isDigit := hrest c rfl
      simp [List.takeWhile_cons_of_neg hc, List.dropWhile_cons_of_neg hc]

theorem exponent?_exponentText (e : Int) : exponent? (exponentText e) = some e := by
  have hall : (digitsOf e.natAbs).all Char.isDigit :=
    List.all_eq_true.2 fun _ => isDigit_of_mem_digitsOf
  have hdigits := digitsOf_ne_nil e.natAbs
  unfold exponentText exponent?
  generalize hn : e.natAbs = n at hall hdigits ⊢
  rcases Int.lt_or_le e 0 with h | h
  · have hvalue : -(n : Int) = e := by omega
    simp [h, exponentSign, hdigits, hall, natOf_digitsOf, hvalue]
  · have hvalue : (n : Int) = e := by omega
    simp [Int.not_lt.2 h, exponentSign, hdigits, hall, natOf_digitsOf, hvalue]

theorem sign_signChars (negative : Bool) (h : ∀ c ∈ ds.head?, c.isDigit) :
    sign (signChars negative ++ ds) = (negative, ds) := by
  cases negative with
  | true => rfl
  | false =>
      cases ds with
      | nil => rfl
      | cons c cs =>
          have hne : c ≠ '-' := by
            rintro rfl
            exact absurd (h '-' rfl) (by decide)
          simp [signChars, sign, hne]

theorem Proper.parse?_chars (h : x.Proper) : parse? x.chars = some x := by
  obtain ⟨negative, whole, fraction, exponent⟩ := x
  obtain ⟨hleading, hwhole, hfraction, -⟩ := h
  dsimp only at hleading hwhole hfraction
  have hhead : ∀ c ∈ (whole ++ (pointChars fraction ++ exponentChars exponent)).head?,
      c.isDigit := by
    cases whole with
    | nil => exact absurd rfl hleading
    | cons d ds => simpa using hwhole d (by simp)
  have hexponent : ∀ c ∈ (exponentChars exponent).head?, ¬c.isDigit := by
    unfold exponentChars
    split <;> simp
  have hpoint : ∀ c ∈ (pointChars fraction ++ exponentChars exponent).head?, ¬c.isDigit := by
    unfold pointChars
    split
    · exact hexponent
    · simp
  obtain ⟨htake, hdrop⟩ := split_digits hwhole hpoint
  obtain ⟨htake', hdrop'⟩ := split_digits hfraction hexponent
  unfold parse? chars
  simp only [sign_signChars negative hhead, htake, hdrop, hleading, if_false]
  by_cases hnone : fraction = []
  · by_cases hzero : exponent = 0
    · simp [hnone, hzero, pointChars, exponentChars]
    · simp [hnone, hzero, pointChars, exponentChars, exponent?_exponentText]
  · simp only [pointChars, hnone, if_false, List.cons_append, htake', hdrop', Option.some.injEq,
      Option.getD_some]
    by_cases hzero : exponent = 0
    · simp [hzero, exponentChars]
    · simp [hzero, exponentChars, exponent?_exponentText]

theorem Proper.isDigit_of_mem (h : x.Proper) {c : Char} (hc : c ∈ x.chars) :
    c.isDigit ∨ c ∈ ['-', '.', 'e', '+'] := by
  simp only [chars, List.mem_append] at hc
  rcases hc with hsign | hwhole | hpoint | hexponent
  · unfold signChars at hsign
    split at hsign <;> simp_all
  · exact .inl (h.whole c hwhole)
  · unfold pointChars at hpoint
    split at hpoint
    · cases hpoint
    · rcases List.mem_cons.1 hpoint with rfl | hdigit
      · exact .inr (by simp)
      · exact .inl (h.fraction c hdigit)
  · unfold exponentChars exponentText at hexponent
    split at hexponent
    · cases hexponent
    · simp only [List.mem_cons] at hexponent
      rcases hexponent with rfl | rfl | hdigit
      · exact .inr (by simp)
      · exact .inr (by split <;> simp)
      · exact .inl (isDigit_of_mem_digitsOf hdigit)

end Numeral

namespace Number

open Numeral

def Digits.numeral (negative : Bool) (d : Digits) : Numeral :=
  let count : Int := d.digits.length
  if 0 < d.place ∧ d.place ≤ 21 then
    if count ≤ d.place then ⟨negative, d.digits ++ zeros (d.place - count).toNat, [], 0⟩
    else ⟨negative, d.digits.take d.place.toNat, d.digits.drop d.place.toNat, 0⟩
  else if -6 < d.place ∧ d.place ≤ 0 then ⟨negative, ['0'], zeros (-d.place).toNat ++ d.digits, 0⟩
  else ⟨negative, d.digits.take 1, d.digits.drop 1, d.place - 1⟩

variable {d : Digits}

theorem chars_numeral (hd : d.digits ≠ []) (negative : Bool) :
    (d.numeral negative).chars = signChars negative ++ d.layout := by
  unfold Digits.numeral Digits.layout
  dsimp only
  split
  · split
    · simp [Numeral.chars, pointChars, exponentChars]
    · have hdrop : d.digits.drop d.place.toNat ≠ [] := by
        rw [ne_eq, List.drop_eq_nil_iff]
        omega
      simp [Numeral.chars, pointChars, exponentChars, hdrop]
  · split
    · simp [Numeral.chars, pointChars, exponentChars, hd]
    · have hexponent : d.place - 1 ≠ 0 := by omega
      have hdrop : d.digits.tail = [] ↔ d.digits.length ≤ 1 := by
        rw [← List.drop_one, List.drop_eq_nil_iff]
      simp [Numeral.chars, pointChars, exponentChars, hexponent, hdrop]

theorem proper_numeral (hd : d.digits ≠ []) (hdigits : ∀ c ∈ d.digits, c.isDigit)
    (hhead : d.digits.head? ≠ some '0') (negative : Bool) : (d.numeral negative).Proper := by
  have hzeros (k : Nat) : ∀ c ∈ zeros k, c.isDigit := by
    intro c hc
    rw [List.eq_of_mem_replicate hc]
    rfl
  have htake (k : Nat) : ∀ c ∈ d.digits.take k, c.isDigit := fun c hc =>
    hdigits c (List.mem_of_mem_take hc)
  have hdrop (k : Nat) : ∀ c ∈ d.digits.drop k, c.isDigit := fun c hc =>
    hdigits c (List.mem_of_mem_drop hc)
  obtain ⟨first, others, hcs⟩ := List.exists_cons_of_ne_nil hd
  have hfirst : first ≠ '0' := by simpa [hcs] using hhead
  unfold Digits.numeral
  dsimp only
  split
  · rename_i hplace
    split
    · exact ⟨by simp [hcs], List.forall_mem_append.2 ⟨hdigits, hzeros _⟩, by simp,
        by simp [isCanonical, hcs, hfirst]⟩
    · obtain ⟨k, hk⟩ : ∃ k, d.place.toNat = k + 1 := ⟨d.place.toNat - 1, by omega⟩
      exact ⟨by simp [hcs, hk], htake _, hdrop _, by simp [isCanonical, hcs, hk, hfirst]⟩
  · split
    · exact ⟨by simp, by simp, List.forall_mem_append.2 ⟨hzeros _, hdigits⟩, rfl⟩
    · exact ⟨by simp [hcs], htake 1, hdrop 1, by simp [isCanonical, hcs]⟩

theorem number_numeral (hd : d.digits ≠ []) (negative : Bool) :
    (d.numeral negative).number =
      ofDecimal negative (natOf d.digits) (d.place - d.digits.length) := by
  unfold Digits.numeral Numeral.number
  dsimp only
  split
  · split
    · -- the zeros that are filled in make up for the exponent
      rw [List.append_nil, natOf_append, natOf_zeros, Nat.add_zero, ofDecimal_mul_ten_pow]
      simp only [zeros, List.length_replicate, List.length_nil]
      congr 1
      omega
    · dsimp only
      rw [List.take_append_drop, List.length_drop]
      congr 1
      omega
  · split
    · have hvalue : natOf (['0'] ++ (zeros (-d.place).toNat ++ d.digits)) = natOf d.digits := by
        rw [natOf_append, natOf_append, natOf_zeros, Nat.zero_mul, Nat.zero_add, Nat.add_eq_right]
        exact Nat.zero_mul _
      dsimp only
      rw [hvalue]
      simp only [zeros, List.length_append, List.length_replicate]
      congr 1
      omega
    · dsimp only
      rw [List.take_append_drop, List.length_drop]
      congr 1
      have hpos := List.length_pos_iff.2 hd
      omega

theorem digits_pos {digits units : Nat} {exponent : Int} {fits : Fits units} (hpos : 0 < units)
    (h : ofDecimal false digits exponent = .finite false units fits) : 0 < digits := by
  by_contra hzero
  rw [Nat.eq_zero_of_not_pos hzero, ofDecimal_eq_ofRatio, Nat.zero_mul, Nat.zero_mul] at h
  have hround : roundUnits 0 (10 ^ (-exponent).toNat) = 0 :=
    roundUnits_of_lt (Nat.pow_pos (by decide))
  rw [← round_of_ofRatio h, hround] at hpos
  exact absurd hpos (Nat.lt_irrefl 0)

theorem digitsAt_spec {units : Nat} (fits : Fits units) (hpos : 0 < units) {ds : Digits}
    (hds : digitsAt units = ds) :
    ds.digits ≠ [] ∧ (∀ c ∈ ds.digits, c.isDigit) ∧ ds.digits.head? ≠ some '0' ∧
      ∀ negative, ofDecimal negative (natOf ds.digits) (ds.place - ds.digits.length) =
        .finite negative units fits := by
  obtain ⟨d, e, hshortest⟩ : ∃ d e, shortest units = (d, e) := ⟨_, _, rfl⟩
  have hback := ofDecimal_shortest fits hshortest
  rw [digitsAt, hshortest] at hds
  subst hds
  have hspec := dropTrailingZeros_spec (digits_pos hpos (hback false)) rfl
  dsimp only
  generalize dropTrailingZeros (digitsOf d) = cs at hspec ⊢
  obtain ⟨hne, hdigits, hhead, hlength, hvalue⟩ := hspec
  refine ⟨hne, hdigits, hhead, fun negative => ?_⟩
  have hexponent : e + (digitsOf d).length - cs.length =
      e + ((digitsOf d).length - cs.length : Nat) := by
    omega
  rw [hexponent, ← ofDecimal_mul_ten_pow, hvalue, hback]

theorem chars_finite {units : Nat} (hpos : 0 < units) (fits : Fits units) (negative : Bool) :
    (finite negative units fits).chars = signChars negative ++ (digitsAt units).layout := by
  have hne : units ≠ 0 := Nat.pos_iff_ne_zero.1 hpos
  unfold Number.chars magnitudeChars
  simp only [hne, if_false, bne_iff_ne.2 hne, Bool.and_true]
  rfl

theorem key_finite {units : Nat} (hpos : 0 < units) (fits : Fits units) (negative : Bool) :
    (finite negative units fits).key = finite negative units fits := by
  unfold key
  split
  · rename_i heq
    cases heq
    exact absurd hpos (Nat.lt_irrefl 0)
  · rfl

def isFinite : Number → Bool
  | .finite .. => true
  | _ => false

theorem exists_numeral {x : Number} (hx : x.isFinite) :
    ∃ y : Numeral, y.Proper ∧ y.chars = x.chars ∧ y.number = x.key := by
  cases x with
  | nan | infinite => cases hx
  | finite negative units fits =>
      rcases Nat.eq_zero_or_pos units with rfl | hpos
      · refine ⟨⟨false, ['0'], [], 0⟩, ⟨by simp, by simp, by simp, rfl⟩, ?_, ?_⟩
        · cases negative <;> rfl
        · have hzero : ofDecimal false 0 0 = zero := ofRatio_of_fits fits_zero
          cases negative <;> exact hzero
      · obtain ⟨ds, hds⟩ : ∃ ds, digitsAt units = ds := ⟨_, rfl⟩
        obtain ⟨hne, hdigits, hhead, hvalue⟩ := digitsAt_spec fits hpos hds
        refine ⟨ds.numeral negative, proper_numeral hne hdigits hhead negative, ?_, ?_⟩
        · rw [chars_finite hpos, hds, chars_numeral hne]
        · rw [number_numeral hne, key_finite hpos, hvalue]

end Number

end ToolGate
