import ToolGate.Journal.Redaction

namespace ToolGate

variable {s : Text.Wide} {u : Nat}

def blankedUnit (u : Nat) : Nat :=
  if (u < 0x20 ∧ u ≠ 0x9) ∨ u = 0x7F then 0x20 else u

structure IsClean (s : Text.Wide) : Prop where
  short : s.units.length ≤ 500
  controls : ∀ u ∈ s.units, (u < 0x20 → u = 0x9) ∧ u ≠ 0x7F

theorem blankedUnit_lt (h : u < 0x10000) : blankedUnit u < 0x10000 := by
  unfold blankedUnit
  split
  · decide
  · exact h

theorem blankedUnit_clean (u : Nat) :
    (blankedUnit u < 0x20 → blankedUnit u = 0x9) ∧ blankedUnit u ≠ 0x7F := by
  unfold blankedUnit
  split <;> omega

theorem blankedUnit_eq_self (h : (u < 0x20 → u = 0x9) ∧ u ≠ 0x7F) : blankedUnit u = u :=
  if_neg (by omega)

theorem units_cleanMessage (s : Text.Wide) :
    (cleanMessage s).units = (s.units.map blankedUnit).take 500 := by
  have hblanked : (s.units.map fun u => if isControl u then 0x20 else u) =
      s.units.map blankedUnit := by
    refine List.map_congr_left fun u _ => ?_
    simp [isControl, blankedUnit]
  rw [cleanMessage, hblanked]
  refine Text.Wide.units_ofUnits fun u hu => ?_
  obtain ⟨v, hv, rfl⟩ := List.mem_map.1 (List.mem_of_mem_take hu)
  exact blankedUnit_lt (s.bounded v hv)

example : (cleanMessage (.ofUnits (List.replicate 499 0x61 ++ [0xD83D, 0xDE00]))).units.drop 498 =
    [0x61, 0xD83D] := by
  decide +kernel

theorem isClean_cleanMessage (s : Text.Wide) : IsClean (cleanMessage s) where
  short := by
    rw [units_cleanMessage]
    exact List.length_take_le 500 _
  controls u hu := by
    rw [units_cleanMessage] at hu
    obtain ⟨v, -, rfl⟩ := List.mem_map.1 (List.mem_of_mem_take hu)
    exact blankedUnit_clean v

theorem cleanMessage_eq_self (h : IsClean s) : cleanMessage s = s := by
  have hkept : s.units.map blankedUnit = s.units.map id :=
    List.map_congr_left fun u hu => blankedUnit_eq_self (h.controls u hu)
  refine Text.Wide.ext_units ?_
  rw [units_cleanMessage, hkept, List.map_id]
  exact List.take_of_length_le h.short

end ToolGate
