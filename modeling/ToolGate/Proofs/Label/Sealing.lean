import ToolGate.Label.Verifier

namespace ToolGate

variable {seals more : Seals} {s : Seal} {tag : String}

namespace Seals

theorem holds_iff : seals.holds s ↔ seals[s.serial]? = some s.tag := by
  simp [holds]

theorem holds_of_isPrefix (hmore : seals <+: more) (h : seals.holds s) : more.holds s := by
  obtain ⟨rest, rfl⟩ := hmore
  rw [holds_iff] at h ⊢
  have hserial := (List.getElem?_eq_some_iff.1 h).1
  rw [List.getElem?_append_left hserial, h]

theorem holds_snoc (h : holds (seals ++ [tag]) s) : seals.holds s ∨ s = ⟨seals.length, tag⟩ := by
  rw [holds_iff, List.getElem?_append] at h
  split at h
  · exact .inl (holds_iff.2 h)
  · rw [List.getElem?_singleton] at h
    split at h
    · obtain ⟨serial, _⟩ := s
      obtain rfl := Option.some_inj.1 h
      have hserial : serial = seals.length := by simp only at *; omega
      exact .inr (by rw [hserial])
    · cases h

end Seals

namespace Mark

variable {m : Mark}

theorem admissible_of_isPrefix (hmore : seals <+: more) (h : m.admissible seals) :
    m.admissible more := by
  cases m with
  | plain i => cases i <;> exact h
  | sealed s => exact Seals.holds_of_isPrefix hmore h

theorem sealed_of_verified (h : m.admissible seals) (hm : m.integrity = .verified tag) :
    ∃ s, m = .sealed s ∧ s.tag = tag ∧ seals.holds s := by
  cases m with
  | plain i =>
      obtain rfl : i = .verified tag := hm
      cases h
  | sealed s => exact ⟨s, rfl, Integrity.verified.inj hm, h⟩

end Mark

namespace Registry

variable {Candidate : Type} {r r' : Registry Candidate} {tag : String} {candidate : Candidate}
  {v : Verifier Candidate} {seals seals' : Seals}

theorem register_ok (h : r.register tag v = .ok r') :
    ¬Named.has tag r ∧ r' = Named.put tag v r := by
  unfold register at h
  split at h
  · cases h
  · split at h
    · cases h
    · cases h
      exact ⟨‹_›, rfl⟩

theorem verify_some {s : Seal} (h : r.verify tag candidate seals = .ok (some s, seals')) :
    (∃ v, Named.get? tag r = some v ∧ v candidate = .ok true) ∧ s = ⟨seals.length, tag⟩ ∧
      seals' = seals ++ [tag] := by
  unfold verify at h
  split at h
  · cases h
  · split at h
    · cases h
    · cases h
    · cases h
      exact ⟨⟨_, ‹_›, ‹_›⟩, rfl, rfl⟩

theorem verify_none (h : r.verify tag candidate seals = .ok (none, seals')) : seals' = seals := by
  unfold verify at h
  split at h
  · cases h
    rfl
  · split at h
    · cases h
    · cases h
      rfl
    · cases h

end Registry

end ToolGate
