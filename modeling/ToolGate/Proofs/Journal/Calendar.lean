import ToolGate.Journal.Instant

namespace ToolGate.Day

variable {d n m year r : Int}

def daysBefore (year : Int) : Int :=
  365 * year + year / 4 - year / 100 + year / 400

def yearOfEra (d : Int) : Int :=
  (d - d / 1460 + d / 36524 - d / 146096) / 365

def ofMarch (year r : Int) : Day :=
  let month := (5 * r + 2) / 153
  let day := r - (153 * month + 2) / 5 + 1
  if month < 10 then ⟨year, month + 3, day⟩ else ⟨year + 1, month - 9, day⟩

theorem daysBefore_yearOfEra (h : 0 ≤ d) (h' : d < 146097) :
    daysBefore (yearOfEra d) ≤ d ∧ d < daysBefore (yearOfEra d + 1) := by
  -- the last day of an era would be the first one of another year but for the last correction
  obtain rfl | hlast : d = 146096 ∨ d < 146096 := by omega
  · decide
  have hlow : 365 * yearOfEra d ≤ d - d / 1460 + d / 36524 := by
    unfold yearOfEra
    omega
  have hhigh : d - d / 1460 + d / 36524 < 365 * (yearOfEra d + 1) := by
    unfold yearOfEra
    omega
  generalize yearOfEra d = y at *
  have hcentury : y / 100 = d / 36524 := by omega
  have hleap : y / 4 ≤ d / 1460 := by omega
  have hleap' : d / 1460 ≤ (y + 1) / 4 := by omega
  have hnext : y + 1 = 100 * (d / 36524 + 1) ∨ (y + 1) / 100 = d / 36524 := by omega
  unfold daysBefore
  constructor
  · omega
  · obtain hnext | hnext := hnext <;> omega

theorem daysBefore_add (year era : Int) :
    daysBefore (year + era * 400) = daysBefore year + era * 146097 := by
  unfold daysBefore
  omega

theorem daysBefore_mono (h : n ≤ m) : daysBefore n ≤ daysBefore m := by
  unfold daysBefore
  omega

theorem exists_ofMarch (n : Int) : ∃ year r, ofNumber n = ofMarch year r ∧
    daysBefore year + r = n + 719468 ∧ 0 ≤ r ∧ r ≤ 365 ∧
      daysBefore year + r < daysBefore (year + 1) := by
  have hera : (n + 719468).fdiv 146097 = (n + 719468) / 146097 :=
    Int.fdiv_eq_ediv_of_nonneg _ (by decide)
  obtain ⟨hlow, hhigh⟩ := daysBefore_yearOfEra
    (d := n + 719468 - (n + 719468) / 146097 * 146097) (by omega) (by omega)
  have hyear : 0 ≤ yearOfEra (n + 719468 - (n + 719468) / 146097 * 146097) ∧
      yearOfEra (n + 719468 - (n + 719468) / 146097 * 146097) < 400 := by
    unfold yearOfEra
    omega
  generalize hd : n + 719468 - (n + 719468) / 146097 * 146097 = d at *
  have hlength : daysBefore (yearOfEra d + 1) ≤ daysBefore (yearOfEra d) + 366 := by
    unfold daysBefore
    omega
  refine ⟨yearOfEra d + (n + 719468) / 146097 * 400, d - daysBefore (yearOfEra d), ?_, ?_, ?_, ?_,
    ?_⟩
  · have hbefore : daysBefore (yearOfEra d) =
        365 * yearOfEra d + yearOfEra d / 4 - yearOfEra d / 100 := by
      unfold daysBefore
      omega
    unfold ofNumber
    simp only [hera, hd, hbefore]
    rfl
  · rw [daysBefore_add]
    omega
  · omega
  · omega
  · rw [Int.add_right_comm, daysBefore_add, daysBefore_add]
    omega

theorem number_ofMarch (h : 0 ≤ r) (h' : r ≤ 365) :
    (ofMarch year r).number = daysBefore year + r - 719468 := by
  have hmonth : (5 * r + 2) / 153 ≤ 11 := by omega
  unfold ofMarch
  simp only
  split
  case isTrue hlate =>
    have hera : year.fdiv 400 = year / 400 := Int.fdiv_eq_ediv_of_nonneg _ (by decide)
    have hmarch : ¬(5 * r + 2) / 153 + 3 ≤ 2 := by omega
    unfold number daysBefore
    simp only [if_neg hmarch, hera]
    omega
  case isFalse hlate =>
    have hera : (year + 1 - 1).fdiv 400 = (year + 1 - 1) / 400 :=
      Int.fdiv_eq_ediv_of_nonneg _ (by decide)
    have hmarch : (5 * r + 2) / 153 - 9 ≤ 2 := by omega
    unfold number daysBefore
    simp only [if_pos hmarch, hera]
    omega

theorem number_ofNumber (n : Int) : (ofNumber n).number = n := by
  obtain ⟨year, r, hday, hnumber, hr, hr', -⟩ := exists_ofMarch n
  rw [hday, number_ofMarch hr hr']
  omega

theorem number_first (year month day : Int) :
    number ⟨year, month, 1⟩ + (day - 1) = number ⟨year, month, day⟩ := by
  unfold number
  dsimp only
  omega

theorem ofNumber_bounds (n : Int) : 1 ≤ (ofNumber n).month ∧ (ofNumber n).month ≤ 12 ∧
    1 ≤ (ofNumber n).day ∧ (ofNumber n).day ≤ 31 := by
  obtain ⟨year, r, hday, hnumber, hr, hr', -⟩ := exists_ofMarch n
  rw [hday]
  unfold ofMarch
  dsimp only
  split <;> dsimp only <;> omega

def Earlier (d d' : Day) : Prop :=
  d.year < d'.year ∨ d.year = d'.year ∧ (d.month < d'.month ∨ d.month = d'.month ∧ d.day < d'.day)

theorem ofNumber_earlier (h : n < m) : Earlier (ofNumber n) (ofNumber m) := by
  obtain ⟨year, r, hday, hnumber, hlow, hhigh, hyear⟩ := exists_ofMarch n
  obtain ⟨year', r', hday', hnumber', hlow', hhigh', hyear'⟩ := exists_ofMarch m
  have horder : year < year' ∨ year = year' ∧ r < r' := by
    rcases Int.lt_trichotomy year year' with hlt | rfl | hlt
    · exact .inl hlt
    · exact .inr ⟨rfl, by omega⟩
    · have hmono := daysBefore_mono (n := year' + 1) (m := year) hlt
      omega
  rw [hday, hday']
  unfold ofMarch Earlier
  dsimp only
  split <;> split <;> dsimp only <;> omega

end ToolGate.Day
