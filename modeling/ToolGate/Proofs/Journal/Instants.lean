import ToolGate.Proofs.Journal.Calendar
import ToolGate.Proofs.Number.Digits
import ToolGate.Proofs.Text.Order

namespace ToolGate

open Numeral (natOf natOf_append natOf_zeros natOf_digitsOf)

variable {ds es cs rest : List Char} {width low high n m : Nat}

theorem length_padded (hwidth : 0 < width) (h : n < 10 ^ width) : (padded width n).length = width := by
  have hlength : (Nat.repr n).toList.length ≤ width := by
    rw [Nat.toList_repr]
    exact (Nat.length_toDigits_le_iff (by decide) hwidth).2 h
  simp only [padded, List.length_append, List.length_replicate]
  omega

theorem isDigit_of_mem_padded {c : Char} (h : c ∈ padded width n) : c.isDigit := by
  obtain h | h := List.mem_append.1 h
  · rw [List.eq_of_mem_replicate h]
    decide
  · exact Number.isDigit_of_mem_digitsOf h

theorem natOf_padded (width n : Nat) : natOf (padded width n) = n := by
  have hzeros := natOf_zeros (width - (Nat.repr n).toList.length)
  rw [Number.zeros] at hzeros
  rw [padded, natOf_append, hzeros, Nat.zero_mul, Nat.zero_add]
  exact natOf_digitsOf n

theorem toNat_of_isDigit {c : Char} (h : c.isDigit) : 48 ≤ c.toNat ∧ c.toNat ≤ 57 :=
  Char.isDigit_iff_toNat.1 h

theorem natOf_cons (c : Char) (ds : List Char) :
    natOf (c :: ds) = (c.toNat - 48) * 10 ^ ds.length + natOf ds := by
  have hdigit : natOf [c] = c.toNat - 48 := Nat.zero_add _
  rw [← List.singleton_append, natOf_append, hdigit]

theorem natOf_lt (hds : ∀ c ∈ ds, c.isDigit) : natOf ds < 10 ^ ds.length := by
  induction ds with
  | nil => decide
  | cons c ds ih =>
      obtain ⟨hc, hds⟩ := List.forall_mem_cons.1 hds
      have hrest := ih hds
      have hdigit : c.toNat - 48 ≤ 9 := by
        have hbounds := toNat_of_isDigit hc
        omega
      have hmul := Nat.mul_le_mul_right (10 ^ ds.length) hdigit
      rw [natOf_cons, List.length_cons, Nat.pow_succ]
      omega

theorem unitsLe_of_natOf_le (hds : ∀ c ∈ ds, c.isDigit) (hes : ∀ c ∈ es, c.isDigit)
    (hlength : ds.length = es.length) (h : natOf ds ≤ natOf es) :
    Text.unitsLe (ds.map Char.toNat) (es.map Char.toNat) := by
  induction ds generalizing es with
  | nil => rfl
  | cons c ds ih =>
      cases es with
      | nil => cases hlength
      | cons d es =>
          obtain ⟨hc, hds⟩ := List.forall_mem_cons.1 hds
          obtain ⟨hd, hes⟩ := List.forall_mem_cons.1 hes
          have hlength : ds.length = es.length := Nat.succ.inj hlength
          have hbound := natOf_lt hds
          have hbound' := natOf_lt hes
          have hzero := (toNat_of_isDigit hd).1
          rw [natOf_cons, natOf_cons, ← hlength] at h
          simp only [List.map_cons, Text.unitsLe, Bool.or_eq_true, decide_eq_true_eq,
            Bool.and_eq_true, beq_iff_eq]
          rw [← hlength] at hbound'
          rcases Nat.lt_trichotomy c.toNat d.toNat with hlt | heq | hlt
          · exact .inl hlt
          · refine .inr ⟨heq, ih hds hes hlength ?_⟩
            rw [heq] at h
            omega
          · -- a greater first digit outweighs all that follow
            have hmul := Nat.mul_le_mul_right (10 ^ ds.length)
              (show d.toNat - 48 + 1 ≤ c.toNat - 48 by omega)
            rw [Nat.add_mul] at hmul
            omega

def FourDigitYear (n : Int) : Prop :=
  0 ≤ (Day.ofNumber n).year ∧ (Day.ofNumber n).year ≤ 9999

namespace Instant

variable {ms : Int}

def EndsDigits (cs : List Char) : Prop :=
  cs.head?.all (!·.isDigit)

theorem fixed?_padded (hwidth : 0 < width) (hn : n < 10 ^ width) (hrest : EndsDigits rest) :
    fixed? width (padded width n ++ rest) = some (n, rest) := by
  have htake : rest.takeWhile Char.isDigit = [] := by
    cases rest with
    | nil => rfl
    | cons c rest => simpa [EndsDigits] using hrest
  have hlength := length_padded hwidth hn
  have hdigits : (padded width n ++ rest).takeWhile Char.isDigit = padded width n := by
    rw [List.takeWhile_append_of_pos fun c => isDigit_of_mem_padded, htake, List.append_nil]
  simp only [fixed?, hdigits]
  rw [if_pos hlength, natOf_padded, List.drop_left' hlength]

theorem within?_padded (hwidth : 0 < width) (hn : n < 10 ^ width) (hrest : EndsDigits rest)
    (hlow : low ≤ n) (hhigh : n ≤ high) :
    within? low high (fixed? width (padded width n ++ rest)) = some (n, rest) := by
  rw [fixed?_padded hwidth hn hrest]
  exact if_pos ⟨hlow, hhigh⟩

theorem year?_padded (hn : n < 10000) (hrest : EndsDigits rest) :
    year? (padded 4 n ++ rest) = some ((n : Int), rest) := by
  have hfixed : fixed? 4 (padded 4 n ++ rest) = some (n, rest) :=
    fixed?_padded (by decide) hn hrest
  have hdigit : ∀ c ∈ padded 4 n, c.isDigit := fun c => isDigit_of_mem_padded
  have hlength : (padded 4 n).length = 4 := length_padded (by decide) hn
  cases hpadded : padded 4 n with
  | nil => simp [hpadded] at hlength
  | cons c cs =>
      rw [hpadded] at hfixed hdigit
      have hc := hdigit c List.mem_cons_self
      rw [List.cons_append] at hfixed ⊢
      unfold year?
      split
      · rename_i heq
        cases heq
        exact absurd hc (by decide)
      · rename_i heq
        cases heq
        exact absurd hc (by decide)
      · rw [hfixed]
        rfl

theorem day?_chars {d : Day} (hyear : 0 ≤ d.year ∧ d.year ≤ 9999)
    (hmonth : 1 ≤ d.month ∧ d.month ≤ 12) (hday : 1 ≤ d.day ∧ d.day ≤ 31)
    (hrest : EndsDigits rest) : day? (d.chars ++ rest) = some (d.number, rest) := by
  obtain ⟨year, month, day⟩ := d
  dsimp only at hyear hmonth hday
  obtain ⟨year, rfl⟩ := Int.eq_ofNat_of_zero_le hyear.1
  obtain ⟨month, rfl⟩ := Int.eq_ofNat_of_zero_le (a := month) (by omega)
  obtain ⟨day, rfl⟩ := Int.eq_ofNat_of_zero_le (a := day) (by omega)
  have hdash (cs : List Char) : EndsDigits ('-' :: cs) := rfl
  unfold day? Day.chars yearChars
  simp only [if_pos hyear, Int.toNat_natCast, List.append_assoc, List.cons_append]
  rw [year?_padded (by omega) (hdash _)]
  simp only [Option.bind_eq_bind, Option.bind_some]
  rw [within?_padded (by decide) (by omega) (hdash _) (by omega) (by omega)]
  simp only [Option.bind_some, afterMark?, if_true]
  rw [within?_padded (by decide) (by omega) hrest (by omega) (by omega)]
  simp only [Option.bind_some, Day.number_first]
  rfl

theorem natOf_dropWhile_zero (ds : List Char) : natOf (ds.dropWhile (· == '0')) = natOf ds := by
  induction ds with
  | nil => rfl
  | cons c ds ih =>
      rw [List.dropWhile_cons]
      split
      · rename_i hzero
        rw [ih, natOf_cons, eq_of_beq hzero]
        simp
      · rfl

theorem fractionMs_padded (hn : n < 1000) : TimeOfDay.fractionMs (padded 3 n) = n := by
  have hlength : (padded 3 n).length = 3 := length_padded (by decide) hn
  have hshort : ((padded 3 n).dropWhile (· == '0')).length ≤ TimeOfDay.fractionDigits :=
    ((List.dropWhile_suffix _).length_le.trans hlength.le).trans (by decide)
  unfold TimeOfDay.fractionMs
  dsimp only
  rw [List.take_of_length_le hshort, natOf_dropWhile_zero, natOf_padded, hlength]
  exact Nat.mul_div_cancel n (by decide)

theorem fraction?_padded (hn : n < 1000) (hrest : EndsDigits rest) :
    fraction? ('.' :: (padded 3 n ++ rest)) = some (padded 3 n, rest) := by
  have hlength : (padded 3 n).length = 3 := length_padded (by decide) hn
  have hne : padded 3 n ≠ [] := by
    intro h
    rw [h] at hlength
    cases hlength
  have hdigit : ∀ c ∈ padded 3 n, c.isDigit := fun c => isDigit_of_mem_padded
  have htake : rest.takeWhile Char.isDigit = [] ∧ rest.dropWhile Char.isDigit = rest := by
    cases rest with
    | nil => exact ⟨rfl, rfl⟩
    | cons c rest => simpa [EndsDigits] using hrest
  have hdigits : (padded 3 n ++ rest).takeWhile Char.isDigit = padded 3 n := by
    rw [List.takeWhile_append_of_pos hdigit, htake.1, List.append_nil]
  have hdrop : (padded 3 n ++ rest).dropWhile Char.isDigit = rest := by
    rw [List.dropWhile_append_of_pos hdigit, htake.2]
  simp only [fraction?, hdigits, hdrop, if_neg hne]

theorem time?_chars {ms : Nat} (h : ms < 86400000) :
    ∃ t, time? (timeChars ms ++ ['Z']) = some (t, ['Z']) ∧ t.ms = ms := by
  have hcolon (cs : List Char) : EndsDigits (':' :: cs) := rfl
  have hpoint (cs : List Char) : EndsDigits ('.' :: cs) := rfl
  have hzone : EndsDigits ['Z'] := rfl
  have hms : ms % 1000 < 1000 := Nat.mod_lt ms (by decide)
  refine ⟨⟨ms / 3600000, ms / 60000 % 60, ms / 1000 % 60, padded 3 (ms % 1000)⟩, ?_, ?_⟩
  · have hwithin : TimeOfDay.isWithinDay
        ⟨ms / 3600000, ms / 60000 % 60, ms / 1000 % 60, padded 3 (ms % 1000)⟩ := by
      have hhour : ms / 3600000 < 24 := by omega
      simp [TimeOfDay.isWithinDay, hhour]
    unfold time? timeChars
    simp only [List.append_assoc, List.cons_append, Option.bind_eq_bind]
    rw [within?_padded (by decide) (by omega) (hcolon _) (by omega) (by omega)]
    simp only [Option.bind_some]
    rw [within?_padded (by decide) (by omega) (hcolon _) (by omega) (by omega)]
    simp only [Option.bind_some, second?, Option.bind_eq_bind]
    rw [within?_padded (by decide) (by omega) (hpoint _) (by omega) (by omega)]
    simp only [Option.bind_some]
    rw [fraction?_padded hms hzone]
    simp only [Option.bind_some, pure, hwithin, if_true]
  · simp only [TimeOfDay.ms, fractionMs_padded hms]
    omega

def HasFourDigitYear : Instant → Prop
  | .invalid => False
  | .at ms => FourDigitYear (ms.fdiv msPerDay)

theorem fdiv_msPerDay (ms : Int) : ms.fdiv msPerDay = ms / 86400000 :=
  Int.fdiv_eq_ediv_of_nonneg _ (by decide)

theorem fmod_msPerDay (ms : Int) : ms.fmod msPerDay = ms % 86400000 :=
  Int.fmod_eq_emod_of_nonneg _ (by decide)

theorem ofInt_of_fourDigitYear (h : FourDigitYear (ms.fdiv msPerDay)) : ofInt ms = .at ms := by
  obtain ⟨hyear, hyear'⟩ := h
  obtain ⟨hmonth, hmonth', hday, hday'⟩ := Day.ofNumber_bounds (ms.fdiv msPerDay)
  have hnumber := Day.number_ofNumber (ms.fdiv msPerDay)
  have hrange : ms.natAbs ≤ range.natAbs := by
    have hlimit : range.natAbs = 8640000000000000 := rfl
    generalize Day.ofNumber (ms.fdiv msPerDay) = d at *
    have hera (year : Int) : year.fdiv 400 = year / 400 :=
      Int.fdiv_eq_ediv_of_nonneg _ (by decide)
    simp only [Day.number, hera] at hnumber
    rw [fdiv_msPerDay] at hnumber
    split at hnumber <;> omega
  exact if_pos hrange

theorem parseMs?_chars (h : FourDigitYear (ms.fdiv msPerDay)) : parseMs? (chars ms) = some ms := by
  obtain ⟨hmonth, hmonth', hday, hday'⟩ := Day.ofNumber_bounds (ms.fdiv msPerDay)
  have hmark (cs : List Char) : EndsDigits ('T' :: cs) := rfl
  have hrest : (ms.fmod msPerDay).toNat < 86400000 := by
    rw [fmod_msPerDay]
    omega
  obtain ⟨t, htime, hms⟩ := time?_chars hrest
  have hsum : ms.fdiv msPerDay * msPerDay + ((ms.fmod msPerDay).toNat : Int) - 0 = ms := by
    rw [fdiv_msPerDay, fmod_msPerDay, msPerDay]
    omega
  unfold parseMs? chars
  simp only [List.append_assoc, List.cons_append, Option.bind_eq_bind]
  rw [day?_chars h ⟨hmonth, hmonth'⟩ ⟨hday, hday'⟩ (hmark _)]
  simp only [Option.bind_some, true_or, if_true, htime, zone?, Day.number_ofNumber, hms, hsum]
  rfl

theorem parse_text {t : Instant} (h : t.HasFourDigitYear) {s : String} (ht : t.text? = some s) :
    parse s = t := by
  cases t with
  | invalid => cases ht
  | «at» ms =>
      cases ht
      rw [parse, String.toList_ofList, parseMs?_chars h]
      exact ofInt_of_fourDigitYear h

end Instant

end ToolGate
