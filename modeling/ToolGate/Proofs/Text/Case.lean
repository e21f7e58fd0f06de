import ToolGate.Text.Case

namespace ToolGate.Text

variable {n : Nat} {c : Char} {cs : List Char}

theorem lowerCode_of_lt (hn : n < 0x80) :
    lowerCode n = if 0x41 ≤ n ∧ n ≤ 0x5a then n + 0x20 else n := by
  have hruns : caseRuns = ⟨0x41, 0x5a, 1, 0x61⟩ :: caseRuns.tail := rfl
  have hlater : ∀ r ∈ caseRuns.tail, 0x80 ≤ r.first := by decide +kernel
  have hnone : caseRuns.tail.find? (·.holds n) = none := by
    refine List.find?_eq_none.2 fun r hr hholds => ?_
    have hfirst := hlater r hr
    simp only [CaseRun.holds, Bool.and_eq_true, decide_eq_true_eq] at hholds
    omega
  rw [lowerCode, hruns, List.find?_cons, hnone]
  by_cases hletter : 0x41 ≤ n ∧ n ≤ 0x5a
  · have hholds : CaseRun.holds ⟨0x41, 0x5a, 1, 0x61⟩ n := by
      simp [CaseRun.holds, hletter, Nat.mod_one]
    simp only [hholds, if_pos hletter]
    omega
  · have hholds : CaseRun.holds ⟨0x41, 0x5a, 1, 0x61⟩ n = false := by
      simp only [CaseRun.holds, Bool.eq_false_iff, ne_eq, Bool.and_eq_true, decide_eq_true_eq]
      exact fun h => hletter h.1
    simp only [hholds, if_neg hletter]

theorem lookup_of_lt {α : Type} {table : List (Nat × α)} (h : ∀ e ∈ table, 0x80 ≤ e.1)
    (hn : n < 0x80) : table.lookup n = none := by
  refine List.lookup_eq_none_iff.2 fun e he => ?_
  have hkey := h e he
  simp only [bne_iff_ne, ne_eq]
  omega

theorem upperCodes_of_lt (hn : n < 0x80) :
    upperCodes n = [if 0x61 ≤ n ∧ n ≤ 0x7a then n - 0x20 else n] := by
  have hruns : caseRuns = ⟨0x41, 0x5a, 1, 0x61⟩ :: caseRuns.tail := rfl
  have hlater : ∀ r ∈ caseRuns.tail,
      0x80 ≤ r.lower ∨ 0x61 ≤ r.lower ∧ r.lower + (r.last - r.first) ≤ 0x7a := by
    decide +kernel
  have hexpansions : upperExpansions.lookup n = none := lookup_of_lt (by decide +kernel) hn
  have hexceptions : upperExceptions.lookup n = none := lookup_of_lt (by decide +kernel) hn
  rw [upperCodes, hexpansions, hexceptions, hruns, List.findSome?_cons]
  by_cases hletter : 0x61 ≤ n ∧ n ≤ 0x7a
  · have hsource : CaseRun.source? ⟨0x41, 0x5a, 1, 0x61⟩ n = some (n - 0x20) := by
      have hsum : n - 0x61 + 0x41 = n - 0x20 := by omega
      have hlast : n - 0x20 ≤ 0x5a := by omega
      have hfirst : 0x41 ≤ n - 0x20 := by omega
      simp [CaseRun.source?, CaseRun.holds, hletter, hsum, hlast, hfirst, Nat.mod_one]
    rw [hsource, if_pos hletter]
    rfl
  · have hsource : CaseRun.source? ⟨0x41, 0x5a, 1, 0x61⟩ n = none := by
      simp only [CaseRun.source?, CaseRun.holds, Bool.and_eq_true, decide_eq_true_eq,
        ite_eq_right_iff, reduceCtorEq, imp_false]
      omega
    have hnone : caseRuns.tail.findSome? (·.source? n) = none := by
      refine List.findSome?_eq_none_iff.2 fun r hr => ?_
      have hrun := hlater r hr
      simp only [CaseRun.source?, CaseRun.holds, Bool.and_eq_true, decide_eq_true_eq,
        ite_eq_right_iff, reduceCtorEq, imp_false]
      omega
    rw [hsource, hnone, if_neg hletter]
    rfl

def IsAscii (c : Char) : Prop :=
  c.toNat < 0x80

instance : DecidablePred IsAscii :=
  fun c => inferInstanceAs (Decidable (c.toNat < 0x80))

theorem IsAscii.of_all (P : Char → Prop) (h : ∀ n < 0x80, P (Char.ofNat n)) (hc : IsAscii c) :
    P c := by
  rw [← Char.ofNat_toNat c]
  exact h c.toNat hc

theorem IsAscii.of_le {d : Char} (hd : IsAscii d) (h : c.val ≤ d.val) : IsAscii c :=
  Nat.lt_of_le_of_lt (UInt32.le_iff_toNat_le.1 h) hd

theorem IsAscii.toLower (hc : IsAscii c) : IsAscii c.toLower :=
  hc.of_all (fun c => IsAscii c.toLower) (by decide +kernel)

theorem IsAscii.toUpper (hc : IsAscii c) : IsAscii c.toUpper :=
  hc.of_all (fun c => IsAscii c.toUpper) (by decide +kernel)

theorem lowerChar_of_ascii (hc : IsAscii c) : lowerChar c = [c.toLower] := by
  have hmarked : c ≠ 'İ' := by
    rintro rfl
    exact absurd hc (by decide)
  rw [lowerChar, if_neg hmarked, lowerCode_of_lt hc]
  exact hc.of_all (fun c => [Char.ofNat (if 0x41 ≤ c.toNat ∧ c.toNat ≤ 0x5a then c.toNat + 0x20
    else c.toNat)] = [c.toLower]) (by decide +kernel)

theorem upperChar_of_ascii (hc : IsAscii c) : upperChar c = [c.toUpper] := by
  have hbasic : c.toNat < 0x10000 := Nat.lt_trans hc (by decide)
  rw [upperChar, if_pos hbasic, upperCodes_of_lt hc, List.map_singleton]
  exact hc.of_all (fun c => [Char.ofNat (if 0x61 ≤ c.toNat ∧ c.toNat ≤ 0x7a then c.toNat - 0x20
    else c.toNat)] = [c.toUpper]) (by decide +kernel)

theorem lowerBehind_of_ascii (h : ∀ c ∈ cs, IsAscii c) (before : List Char) :
    lowerBehind before cs = cs.map Char.toLower := by
  induction cs generalizing before with
  | nil => rfl
  | cons c cs ih =>
      obtain ⟨hc, hcs⟩ := List.forall_mem_cons.1 h
      have hsigma : c ≠ 'Σ' := by
        rintro rfl
        exact absurd hc (by decide)
      rw [lowerBehind, ih hcs]
      simp [hsigma, lowerChar_of_ascii hc]

theorem lower_of_ascii (h : ∀ c ∈ cs, IsAscii c) : lower cs = cs.map Char.toLower :=
  lowerBehind_of_ascii h []

theorem capitalize_of_ascii (hc : IsAscii c) (cs : List Char) :
    capitalize (c :: cs) = c.toUpper :: cs := by
  rw [capitalize, upperChar_of_ascii hc]
  rfl

end ToolGate.Text
