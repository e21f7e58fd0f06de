import ToolGate.Label.Basic

namespace ToolGate

namespace Integrity

theorem satisfies_join (a b required : Integrity) :
    (a.join b).satisfies required ↔ a.satisfies required ∧ b.satisfies required := by
  simp only [satisfies_iff, join]
  split
  · rename_i hab
    subst hab
    exact and_self_iff.symm
  · rename_i hab
    constructor
    · rintro (h | h)
      · exact ⟨.inl h, .inl h⟩
      · exact ⟨.inl h.symm, .inl h.symm⟩
    · rintro ⟨h | ha, h | hb⟩
      · exact .inl h
      · exact .inl h
      · exact .inl h
      · exact absurd (ha.trans hb.symm) hab

end Integrity

namespace Confidentiality

theorem carries_union (a b : Confidentiality) (tag : String) :
    (a.union b).carries tag ↔ tag ∈ a.tags ∨ tag ∈ b.tags := by
  simp [union, ofTags, carries, List.mem_eraseDups]

theorem carries_iff (a : Confidentiality) (tag : String) :
    a.carries tag ↔ a.universal ∨ tag ∈ a.tags := by
  simp [carries]

theorem carries_join (a b : Confidentiality) (tag : String) :
    (a.join b).carries tag ↔ a.carries tag ∨ b.carries tag := by
  unfold join
  split
  · simp_all [carries_iff]
  · split
    · simp_all [carries_iff]
    · split
      · simp_all [carries_iff]
      · split
        · simp_all [carries_iff]
        · rw [carries_union]
          simp_all [carries_iff]

theorem universal_join (a b : Confidentiality) :
    (a.join b).universal ↔ a.universal ∨ b.universal := by
  unfold join
  split
  · simp_all
  · split
    · simp_all
    · split
      · simp_all
      · split
        · simp_all
        · simp_all [union, ofTags]

end Confidentiality

namespace Label

def joinAll (l : Label) (ls : List Label) : Label :=
  ls.foldl join l

theorem joinAll_cons (l m : Label) (ls : List Label) :
    l.joinAll (m :: ls) = (l.join m).joinAll ls := rfl

theorem joinAll_append (l m : Label) (ls : List Label) :
    l.joinAll (ls ++ [m]) = (l.joinAll ls).join m := by
  simp [joinAll]

theorem satisfies_joinAll (l : Label) (ls : List Label) (required : Integrity) :
    (l.joinAll ls).integrity.satisfies required ↔
      l.integrity.satisfies required ∧ ∀ m ∈ ls, m.integrity.satisfies required := by
  induction ls generalizing l with
  | nil => simp [joinAll]
  | cons m ms ih =>
      have hjoin := Integrity.satisfies_join l.integrity m.integrity required
      rw [joinAll_cons, ih, List.forall_mem_cons, ← and_assoc, ← hjoin]
      rfl

theorem carries_joinAll (l : Label) (ls : List Label) (tag : String) :
    (l.joinAll ls).confidentiality.carries tag ↔
      l.confidentiality.carries tag ∨ ∃ m ∈ ls, m.confidentiality.carries tag := by
  induction ls generalizing l with
  | nil => simp [joinAll]
  | cons m ms ih =>
      have hjoin := Confidentiality.carries_join l.confidentiality m.confidentiality tag
      simp only [List.mem_cons, exists_eq_or_imp]
      rw [joinAll_cons, ih, ← or_assoc, ← hjoin]
      rfl

theorem universal_joinAll (l : Label) (ls : List Label) :
    (l.joinAll ls).confidentiality.universal ↔
      l.confidentiality.universal ∨ ∃ m ∈ ls, m.confidentiality.universal := by
  induction ls generalizing l with
  | nil => simp [joinAll]
  | cons m ms ih =>
      have hjoin := Confidentiality.universal_join l.confidentiality m.confidentiality
      simp only [List.mem_cons, exists_eq_or_imp]
      rw [joinAll_cons, ih, ← or_assoc, ← hjoin]
      rfl

theorem integrity_joinAll (l : Label) (ls : List Label) :
    (l.joinAll ls).integrity =
      if ∀ m ∈ ls, m.integrity = l.integrity then l.integrity else .untrusted := by
  induction ls generalizing l with
  | nil => simp [joinAll]
  | cons m ms ih =>
      rw [joinAll_cons, ih]
      simp only [join, Integrity.join, List.forall_mem_cons]
      by_cases hm : l.integrity = m.integrity
      · simp [hm]
      · have hm' : ¬m.integrity = l.integrity := fun h => hm h.symm
        simp [hm, hm']

end Label

end ToolGate
