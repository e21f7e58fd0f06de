import ToolGate.Journal.Store
import ToolGate.Proofs.Journal.Instants

namespace ToolGate

open Numeral (natOf)
open Text (unitsLe IsBasic)

variable {n m : Int} {ds es : List Char}

def dayText (n : Int) : String :=
  String.ofList (Day.ofNumber n).chars

def DayFiles.dayName (n : Int) : String :=
  fileName (dayText n)

def Instant.day : Instant → Int
  | .invalid => 0
  | .at ms => ms.fdiv msPerDay

namespace FourDigitYear

theorem chars_eq (h : FourDigitYear n) : (Day.ofNumber n).chars =
    padded 4 (Day.ofNumber n).year.toNat ++ '-' :: (padded 2 (Day.ofNumber n).month.toNat ++
      '-' :: padded 2 (Day.ofNumber n).day.toNat) := by
  have hyear : yearChars (Day.ofNumber n).year = padded 4 (Day.ofNumber n).year.toNat := if_pos h
  rw [Day.chars, hyear, List.append_assoc, List.cons_append]

theorem lengths (h : FourDigitYear n) : (padded 4 (Day.ofNumber n).year.toNat).length = 4 ∧
    (padded 2 (Day.ofNumber n).month.toNat).length = 2 ∧
      (padded 2 (Day.ofNumber n).day.toNat).length = 2 := by
  obtain ⟨hyear, hyear'⟩ := h
  obtain ⟨hmonth, hmonth', hday, hday'⟩ := Day.ofNumber_bounds n
  exact ⟨length_padded (by decide) (by omega), length_padded (by decide) (by omega),
    length_padded (by decide) (by omega)⟩

theorem length_chars (h : FourDigitYear n) : (Day.ofNumber n).chars.length = 10 := by
  obtain ⟨hyear, hmonth, hday⟩ := h.lengths
  rw [h.chars_eq]
  simp [hyear, hmonth, hday]

theorem isBasic (h : FourDigitYear n) : IsBasic (dayText n) := by
  intro c hc
  rw [dayText, String.toList_ofList, h.chars_eq] at hc
  have hdigit {width k : Nat} (hmem : c ∈ padded width k) : c.toNat < 0x10000 := by
    have hbounds := toNat_of_isDigit (isDigit_of_mem_padded hmem)
    omega
  simp only [List.mem_append, List.mem_cons] at hc
  obtain hc | rfl | hc | rfl | hc := hc
  · exact hdigit hc
  · decide
  · exact hdigit hc
  · decide
  · exact hdigit hc

theorem isDayText (h : FourDigitYear n) : DayFiles.isDayText (Day.ofNumber n).chars := by
  obtain ⟨hyear, hmonth, hday⟩ := h.lengths
  have hdigits (width k : Nat) : ∀ c ∈ padded width k, c.isDigit := fun c => isDigit_of_mem_padded
  have hyears := hdigits 4 (Day.ofNumber n).year.toNat
  have hmonths := hdigits 2 (Day.ofNumber n).month.toNat
  have hdays := hdigits 2 (Day.ofNumber n).day.toNat
  rw [h.chars_eq]
  generalize padded 4 (Day.ofNumber n).year.toNat = ys at *
  generalize padded 2 (Day.ofNumber n).month.toNat = ms at *
  generalize padded 2 (Day.ofNumber n).day.toNat = ds at *
  match ys, ms, ds, hyear, hmonth, hday with
  | [a, b, c, d], [e, f], [g, i], _, _, _ => simp_all [DayFiles.isDayText]

theorem injective (hn : FourDigitYear n) (hm : FourDigitYear m) (h : dayText n = dayText m) :
    n = m := by
  have hread {k : Int} (hk : FourDigitYear k) :
      Instant.day? (dayText k).toList = some (k, []) := by
    obtain ⟨hmonth, hmonth', hday, hday'⟩ := Day.ofNumber_bounds k
    have hchars : Instant.day? ((Day.ofNumber k).chars ++ []) = some ((Day.ofNumber k).number, []) :=
      Instant.day?_chars hk ⟨hmonth, hmonth'⟩ ⟨hday, hday'⟩ rfl
    rwa [List.append_nil, Day.number_ofNumber, ← String.toList_ofList (l := Day.chars _)] at hchars
  have hsame := hread hn
  rw [h, hread hm] at hsame
  cases hsame
  rfl

end FourDigitYear

theorem unitsLe_append_of_lt (hds : ∀ c ∈ ds, c.isDigit) (hes : ∀ c ∈ es, c.isDigit)
    (hlength : ds.length = es.length) (h : natOf ds < natOf es) (xs ys : List Nat) :
    unitsLe (ds.map Char.toNat ++ xs) (es.map Char.toNat ++ ys) := by
  have hne : ds.map Char.toNat ≠ es.map Char.toNat := by
    intro heq
    have hsame : ds = es := (List.map_inj_right fun _ _ => Char.toNat_inj.1).1 heq
    rw [hsame] at h
    exact Nat.lt_irrefl _ h
  rw [Text.unitsLe_append_of_ne (by simpa using hlength) hne]
  exact unitsLe_of_natOf_le hds hes hlength h.le

theorem unitsLe_padded {width k l : Nat} (hk : (padded width k).length = width)
    (hl : (padded width l).length = width) (h : k < l) (xs ys : List Nat) :
    unitsLe ((padded width k).map Char.toNat ++ xs) ((padded width l).map Char.toNat ++ ys) :=
  unitsLe_append_of_lt (fun _ => isDigit_of_mem_padded) (fun _ => isDigit_of_mem_padded)
    (hk.trans hl.symm) (by rwa [natOf_padded, natOf_padded]) xs ys

theorem toList_dayName (n : Int) : (DayFiles.dayName n).toList =
    "audit-".toList ++ ((Day.ofNumber n).chars ++ ".jsonl".toList) := by
  rw [DayFiles.dayName, DayFiles.fileName, String.toList_append, String.toList_append,
    List.append_assoc]
  exact congrArg (fun cs => "audit-".toList ++ (cs ++ ".jsonl".toList)) String.toList_ofList

namespace FourDigitYear

theorem unitsLe_chars (hn : FourDigitYear n) (hm : FourDigitYear m) (h : n < m) :
    unitsLe ((Day.ofNumber n).chars.map Char.toNat) ((Day.ofNumber m).chars.map Char.toNat) := by
  obtain ⟨hyear, hmonth, hday⟩ := hn.lengths
  obtain ⟨hyear', hmonth', hday'⟩ := hm.lengths
  obtain ⟨hlow, -, hlow', -⟩ := Day.ofNumber_bounds n
  have hearlier := Day.ofNumber_earlier h
  have hpositive := hn.1
  rw [hn.chars_eq, hm.chars_eq]
  simp only [List.map_append, List.map_cons]
  rcases hearlier with hlt | ⟨heq, hlt | ⟨heq', hlt⟩⟩
  · exact unitsLe_padded hyear hyear' (by omega) _ _
  · rw [heq, Text.unitsLe_append_left]
    have hrest := unitsLe_padded hmonth hmonth' (by omega)
    simp only [unitsLe, hrest]
    simp
  · rw [heq, heq', Text.unitsLe_append_left]
    have hrest := unitsLe_padded hday hday' (by omega) [] []
    simp only [List.append_nil] at hrest
    simp [unitsLe, Text.unitsLe_append_left, hrest]

theorem units_dayText (h : FourDigitYear n) :
    Text.units (dayText n) = (Day.ofNumber n).chars.map Char.toNat := by
  rw [Text.units_of_isBasic h.isBasic, dayText, String.toList_ofList]

theorem le_dayText (hn : FourDigitYear n) (hm : FourDigitYear m) (h : n ≤ m) :
    Text.le (dayText n) (dayText m) := by
  obtain hlt | rfl := Int.lt_or_eq_of_le h
  · rw [Text.le, hn.units_dayText, hm.units_dayText]
    exact hn.unitsLe_chars hm hlt
  · exact Text.unitsLe_refl _

theorem lt_of_le_dayName (hn : FourDigitYear n) (hm : FourDigitYear m) (hne : n ≠ m)
    (h : Text.le (DayFiles.dayName n) (DayFiles.dayName m)) : n < m := by
  have hunits : Text.units (dayText n) ≠ Text.units (dayText m) := by
    intro heq
    rw [hn.units_dayText, hm.units_dayText] at heq
    have hchars := (List.map_inj_right fun _ _ => Char.toNat_inj.1).1 heq
    exact hne (hn.injective hm (congrArg String.ofList hchars))
  have hlength : (Text.units (dayText n)).length = (Text.units (dayText m)).length := by
    rw [hn.units_dayText, hm.units_dayText, List.length_map, List.length_map, hn.length_chars,
      hm.length_chars]
  rw [Text.le, DayFiles.dayName, DayFiles.dayName, DayFiles.fileName, DayFiles.fileName,
    Text.units_append, Text.units_append, Text.units_append, Text.units_append,
    List.append_assoc, List.append_assoc,
    Text.unitsLe_append_left, Text.unitsLe_append_of_ne hlength hunits] at h
  rcases Int.lt_trichotomy n m with hlt | heq | hlt
  · exact hlt
  · exact absurd heq hne
  · have hback := hm.le_dayText hn (Int.le_of_lt hlt)
    rw [Text.le] at hback
    exact absurd (Text.unitsLe_antisymm h hback) hunits

theorem dayOfFile?_dayName (h : FourDigitYear n) :
    DayFiles.dayOfFile? (DayFiles.dayName n) = some (dayText n) := by
  have hday : ((DayFiles.dayName n).toList.drop 6).take 10 = (Day.ofNumber n).chars := by
    rw [toList_dayName, List.drop_left' (by decide), List.take_left' h.length_chars]
  unfold DayFiles.dayOfFile?
  simp only [hday, String.toList_ofList]
  rw [← dayText, ← DayFiles.dayName, if_pos ⟨rfl, h.isDayText⟩]

end FourDigitYear

theorem Instant.HasFourDigitYear.dayText?_eq {t : Instant} (h : t.HasFourDigitYear) :
    t.dayText? = some (dayText t.day) := by
  cases t with
  | invalid => exact h.elim
  | «at» ms =>
      rw [Instant.dayText?, Instant.chars, List.append_assoc,
        List.take_left' (FourDigitYear.length_chars h)]
      rfl

theorem Instant.HasFourDigitYear.day {t : Instant} (h : t.HasFourDigitYear) :
    FourDigitYear t.day := by
  cases t with
  | invalid => exact h.elim
  | «at» ms => exact h

end ToolGate
