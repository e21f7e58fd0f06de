import ToolGate.Text.Units

namespace ToolGate

namespace Text

def isHigh (u : Nat) : Bool :=
  0xD800 ≤ u && u < 0xDC00

def isLow (u : Nat) : Bool :=
  0xDC00 ≤ u && u < 0xE000

inductive Piece where
  | char (c : Char)
  | half (unit : Nat)

namespace Piece

def ofUnit (u : Nat) : Piece :=
  if isHigh u || isLow u then .half u else .char (Char.ofNat u)

def ofPair (high low : Nat) : Piece :=
  .char (Char.ofNat (0x10000 + (high - 0xD800) * 0x400 + (low - 0xDC00)))

def units : Piece → List Nat
  | .char c => charUnits c
  | .half u => [u]

def shown : Piece → Char
  | .char c => c
  | .half _ => '\ufffd'

end Piece

def pieces : List Nat → List Piece
  | [] => []
  | [u] => [.ofUnit u]
  | u :: v :: us =>
      if isHigh u && isLow v then .ofPair u v :: pieces us else .ofUnit u :: pieces (v :: us)

def ofUnits (us : List Nat) : String :=
  String.ofList ((pieces us).map Piece.shown)

variable {u v : Nat} {us : List Nat} {c : Char}

theorem code_lt (c : Char) : c.toNat < 0xD800 ∨ 0xDFFF < c.toNat ∧ c.toNat < 0x110000 :=
  c.valid

theorem toNat_ofNat (h : u < 0xD800 ∨ 0xDFFF < u ∧ u < 0x110000) : (Char.ofNat u).toNat = u := by
  rw [Char.ofNat, dif_pos h]
  rfl

theorem units_ofUnit (h : u < 0x10000) : (Piece.ofUnit u).units = [u] := by
  unfold Piece.ofUnit
  split
  · rfl
  · rename_i hhalf
    simp only [isHigh, isLow, Bool.or_eq_true, Bool.and_eq_true, decide_eq_true_eq] at hhalf
    rw [Piece.units, charUnits, toNat_ofNat (by omega), if_pos h]

theorem units_ofPair (hu : isHigh u) (hv : isLow v) : (Piece.ofPair u v).units = [u, v] := by
  simp only [isHigh, isLow, Bool.and_eq_true, decide_eq_true_eq] at hu hv
  rw [Piece.ofPair, Piece.units, charUnits, toNat_ofNat (by omega), if_neg (by omega)]
  simp only [List.cons.injEq, and_true]
  omega

theorem flatMap_units_pieces (h : ∀ u ∈ us, u < 0x10000) : (pieces us).flatMap Piece.units = us := by
  induction us using pieces.induct with
  | case1 => rfl
  | case2 u => simpa [pieces] using units_ofUnit (h u (by simp))
  | case3 u v us hpair ih =>
      simp only [Bool.and_eq_true] at hpair
      rw [pieces, if_pos (by simpa using hpair), List.flatMap_cons, units_ofPair hpair.1 hpair.2,
        ih fun w hw => h w (by simp [hw])]
      rfl
  | case4 u v us hpair ih =>
      rw [pieces, if_neg hpair, List.flatMap_cons, units_ofUnit (h u (by simp)),
        ih fun w hw => h w (by simp [List.mem_cons.1 hw])]
      rfl

theorem pieces_charUnits_append (c : Char) (us : List Nat) :
    pieces (charUnits c ++ us) = .char c :: pieces us := by
  have hcode := code_lt c
  unfold charUnits
  split
  · have hhigh : isHigh c.toNat = false := by
      simp only [isHigh, Bool.and_eq_false_iff, decide_eq_false_iff_not]
      omega
    have hlow : isLow c.toNat = false := by
      simp only [isLow, Bool.and_eq_false_iff, decide_eq_false_iff_not]
      omega
    have hunit : Piece.ofUnit c.toNat = .char c := by
      simp [Piece.ofUnit, hhigh, hlow, Char.ofNat_toNat]
    cases us <;> simp [pieces, hhigh, hunit]
  · have hhigh : isHigh (0xD800 + (c.toNat - 0x10000) / 0x400) := by
      simp only [isHigh, Bool.and_eq_true, decide_eq_true_eq]
      omega
    have hlow : isLow (0xDC00 + (c.toNat - 0x10000) % 0x400) := by
      simp only [isLow, Bool.and_eq_true, decide_eq_true_eq]
      omega
    have hvalue : 0x10000 + (0xD800 + (c.toNat - 0x10000) / 0x400 - 0xD800) * 0x400 +
        (0xDC00 + (c.toNat - 0x10000) % 0x400 - 0xDC00) = c.toNat := by omega
    have hpair : Piece.ofPair (0xD800 + (c.toNat - 0x10000) / 0x400)
        (0xDC00 + (c.toNat - 0x10000) % 0x400) = .char c := by
      rw [Piece.ofPair, hvalue, Char.ofNat_toNat]
    simp [pieces, hhigh, hlow, hpair]

theorem pieces_units (s : String) : pieces (units s) = s.toList.map .char := by
  unfold units
  induction s.toList with
  | nil => rfl
  | cons c cs ih => rw [List.flatMap_cons, pieces_charUnits_append, ih, List.map_cons]

theorem ofUnits_units (s : String) : ofUnits (units s) = s := by
  have hshown : (s.toList.map Piece.char).map Piece.shown = s.toList := by
    rw [List.map_map]
    exact List.map_id s.toList
  rw [ofUnits, pieces_units, hshown, String.ofList_toList]

theorem charUnits_lt (h : u ∈ charUnits c) : u < 0x10000 := by
  have hcode := code_lt c
  unfold charUnits at h
  split at h <;> simp only [List.mem_cons, List.not_mem_nil, or_false] at h <;> omega

theorem units_lt {s : String} (h : u ∈ units s) : u < 0x10000 := by
  obtain ⟨c, -, hu⟩ := List.mem_flatMap.1 h
  exact charUnits_lt hu

structure Wide where
  units : List Nat
  bounded : ∀ u ∈ units, u < 0x10000
deriving DecidableEq

namespace Wide

def ofUnits (us : List Nat) : Wide where
  units := us.map (· % 0x10000)
  bounded u hu := by
    obtain ⟨v, -, rfl⟩ := List.mem_map.1 hu
    exact Nat.mod_lt v (by decide)

def ofString (s : String) : Wide := ⟨Text.units s, fun _ => units_lt⟩

instance : Coe String Wide := ⟨ofString⟩

def join (separator : Wide) (texts : List Wide) : Wide :=
  ofUnits (separator.units.intercalate (texts.map units))

/-- The text in UTF-8, which has no halves: the replacement character stands for each of them. -/
def encoded (t : Wide) : String := Text.ofUnits t.units

variable {s t : Wide}

theorem ext_units (h : s.units = t.units) : s = t := by
  cases s
  cases t
  cases h
  rfl

theorem units_ofUnits (h : ∀ u ∈ us, u < 0x10000) : (ofUnits us).units = us := by
  have hmod : us.map (· % 0x10000) = us.map id :=
    List.map_congr_left fun u hu => Nat.mod_eq_of_lt (h u hu)
  exact hmod.trans (List.map_id us)

theorem ofUnits_units (t : Wide) : ofUnits t.units = t :=
  ext_units (units_ofUnits t.bounded)

theorem encoded_ofString (s : String) : (ofString s).encoded = s :=
  Text.ofUnits_units s

end Wide

end Text

/-- Kinds of texts: of characters, or of units. Where a text of characters is made of units, the
replacement character stands for each half. -/
class Textual (τ : Type) where
  units : τ → List Nat
  ofUnits : List Nat → τ
  ofString : String → τ
  whole : τ → String
  bounded : ∀ s, ∀ u ∈ units s, u < 0x10000
  ofUnits_units : ∀ s, ofUnits (units s) = s
  units_ofString : ∀ s, units (ofString s) = Text.units s
  whole_ofString : ∀ s, whole (ofString s) = s

instance : Textual String where
  units := Text.units
  ofUnits := Text.ofUnits
  ofString := id
  whole := id
  bounded _ _ := Text.units_lt
  ofUnits_units := Text.ofUnits_units
  units_ofString _ := rfl
  whole_ofString _ := rfl

instance : Textual Text.Wide where
  units := Text.Wide.units
  ofUnits := Text.Wide.ofUnits
  ofString := Text.Wide.ofString
  whole := Text.Wide.encoded
  bounded := Text.Wide.bounded
  ofUnits_units := Text.Wide.ofUnits_units
  units_ofString _ := rfl
  whole_ofString := Text.Wide.encoded_ofString

end ToolGate
