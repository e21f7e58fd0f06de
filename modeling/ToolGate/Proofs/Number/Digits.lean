import Mathlib.Algebra.Group.Nat.Defs
import Mathlib.Data.List.TakeWhile
import ToolGate.Number.Numeral

namespace ToolGate

namespace Number

theorem digitsOf_eq (n : Nat) : digitsOf n = Nat.toDigits 10 n :=
  Nat.toList_repr

theorem isDigit_of_mem_digitsOf {n : Nat} {c : Char} (h : c ∈ digitsOf n) : c.isDigit := by
  rw [digitsOf_eq] at h
  exact Nat.isDigit_of_mem_toDigits (by decide) (by decide) h

theorem digitsOf_ne_nil (n : Nat) : digitsOf n ≠ [] := by
  rw [digitsOf_eq]
  exact Nat.toDigits_ne_nil

theorem head?_digitsOf {n : Nat} (h : 0 < n) : (digitsOf n).head? ≠ some '0' := by
  rw [digitsOf_eq]
  induction n using Nat.base_induction 10 (by decide) with
  | single m hm =>
      rw [Nat.toDigits_of_lt_base hm]
      revert h
      revert m
      decide
  | digit m k hk hm ih =>
      rw [← Nat.toDigits_append_toDigits (by decide) hm hk, List.head?_append]
      cases hhead : (Nat.toDigits 10 m).head? with
      | none => simp at hhead
      | some c => simpa [hhead] using ih hm

theorem dropTrailingZeros_append (cs : List Char) :
    dropTrailingZeros cs ++ zeros (cs.length - (dropTrailingZeros cs).length) = cs := by
  have hsplit := List.takeWhile_append_dropWhile (p := (· == '0')) (l := cs.reverse)
  have hzeros : cs.reverse.takeWhile (· == '0') =
      List.replicate (cs.reverse.takeWhile (· == '0')).length '0' := by
    rw [List.eq_replicate_iff]
    exact ⟨rfl, fun c hc => by simpa using List.mem_takeWhile_imp hc⟩
  have hcs : dropTrailingZeros cs ++ zeros (cs.reverse.takeWhile (· == '0')).length = cs := by
    rw [dropTrailingZeros, zeros, ← List.reverse_replicate, ← List.reverse_append, ← hzeros, hsplit,
      List.reverse_reverse]
  have hlength := congrArg List.length hcs
  simp only [List.length_append, zeros, List.length_replicate] at hlength
  have hcount : cs.length - (dropTrailingZeros cs).length =
      (cs.reverse.takeWhile (· == '0')).length := by omega
  rw [hcount, hcs]

end Number

namespace Numeral

open Number

theorem natOf_eq (ds : List Char) : natOf ds = Nat.ofDigitChars 10 ds 0 := by
  simp only [natOf, Nat.ofDigitChars_eq_foldl, Nat.mul_comm]

theorem natOf_append (ds es : List Char) :
    natOf (ds ++ es) = natOf ds * 10 ^ es.length + natOf es := by
  rw [natOf_eq, natOf_eq, natOf_eq, Nat.ofDigitChars_append, Nat.ofDigitChars_eq_ofDigitChars_zero,
    Nat.mul_comm]

theorem natOf_zeros (k : Nat) : natOf (zeros k) = 0 := by
  rw [natOf_eq, zeros, Nat.ofDigitChars_replicate_zero, Nat.mul_zero]

theorem natOf_digitsOf (n : Nat) : natOf (digitsOf n) = n := by
  rw [natOf_eq, digitsOf_eq]
  exact Nat.ofDigitChars_ten_toDigits

end Numeral

namespace Number

open Numeral

theorem dropTrailingZeros_spec {n : Nat} (hn : 0 < n) {ds : List Char}
    (hds : dropTrailingZeros (digitsOf n) = ds) :
    ds ≠ [] ∧ (∀ c ∈ ds, c.isDigit) ∧ ds.head? ≠ some '0' ∧ ds.length ≤ (digitsOf n).length ∧
      natOf ds * 10 ^ ((digitsOf n).length - ds.length) = n := by
  have hcs := dropTrailingZeros_append (digitsOf n)
  rw [hds] at hcs
  generalize hk : (digitsOf n).length - ds.length = k at hcs ⊢
  have hvalue : natOf ds * 10 ^ k = n := by
    have h := congrArg natOf hcs
    rwa [natOf_append, natOf_zeros, Nat.add_zero, natOf_digitsOf, zeros, List.length_replicate] at h
  have hne : ds ≠ [] := by
    rintro rfl
    rw [← hvalue, natOf, List.foldl_nil, Nat.zero_mul] at hn
    exact absurd hn (Nat.lt_irrefl 0)
  have hhead : ds.head? ≠ some '0' := by
    have hfirst := head?_digitsOf hn
    obtain ⟨c, cs, rfl⟩ := List.exists_cons_of_ne_nil hne
    rwa [← hcs] at hfirst
  refine ⟨hne, fun c hc => ?_, hhead, ?_, hvalue⟩
  · exact isDigit_of_mem_digitsOf (hcs ▸ List.mem_append_left _ hc)
  · rw [← hcs, List.length_append]
    exact Nat.le_add_right _ _

end Number

end ToolGate
