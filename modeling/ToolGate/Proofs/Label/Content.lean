import ToolGate.Proofs.Label.Algebra
import ToolGate.Proofs.Text.Order

namespace ToolGate

namespace Confidentiality

variable {a b : Confidentiality}

/-- The one of all labels of a meaning that has its tags in order, and none if it is universal. -/
def content (a : Confidentiality) : Confidentiality :=
  if a.universal then .all else .ofTags (Text.sort a.tags) false

theorem universal_iff_meaning : a.universal ↔ a.meaning = ⊤ := by
  unfold meaning
  split <;> simp_all

theorem universal_congr (h : a.meaning = b.meaning) : a.universal = b.universal := by
  rw [Bool.eq_iff_iff, universal_iff_meaning, universal_iff_meaning, h]

theorem sort_tags_congr (h : a.meaning = b.meaning) (ha : ¬a.universal) :
    Text.sort a.tags = Text.sort b.tags := by
  rw [meaning, meaning, ← universal_congr h, if_neg ha, if_neg ha, WithTop.coe_inj] at h
  refine Text.sort_inj.2 ((List.perm_ext_iff_of_nodup a.nodup b.nodup).2 fun tag => ?_)
  rw [← List.mem_toFinset, h, List.mem_toFinset]

theorem names_congr (h : a.meaning = b.meaning) : a.names = b.names := by
  rw [names, names, ← universal_congr h]
  split
  · rfl
  · rename_i ha
    exact sort_tags_congr h ha

theorem carries_content (tag : String) : a.content.carries tag ↔ a.carries tag := by
  unfold content
  split
  · simp_all [carries, all]
  · simp_all [carries, ofTags, List.mem_eraseDups, Text.mem_sort]

theorem content_eq_iff : a.content = b.content ↔ a.meaning = b.meaning := by
  constructor
  · intro h
    refine meaning_eq_iff.2 fun tag => ?_
    rw [← carries_content, h, carries_content]
  · intro h
    rw [content, content, ← universal_congr h]
    split
    · rfl
    · rename_i ha
      rw [sort_tags_congr h ha]

end Confidentiality

namespace Label

variable {a b l m : Label}

def content (l : Label) : Label := ⟨l.integrity, l.confidentiality.content⟩

theorem content_eq_iff : a.content = b.content ↔ a.Alike b := by
  rw [content, content, Label.mk.injEq, Confidentiality.content_eq_iff]
  exact ⟨fun ⟨h, h'⟩ => ⟨h, h'⟩, fun ⟨h, h'⟩ => ⟨h, h'⟩⟩

theorem content_content (l : Label) : l.content.content = l.content := by
  refine content_eq_iff.2 ⟨rfl, Confidentiality.meaning_eq_iff.2 fun tag => ?_⟩
  exact Confidentiality.carries_content tag

theorem Alike.join (h : a.Alike b) (h' : l.Alike m) : (a.join l).Alike (b.join m) := by
  obtain ⟨hsatisfies, hcarries⟩ := alike_iff.1 h
  obtain ⟨hsatisfies', hcarries'⟩ := alike_iff.1 h'
  refine alike_iff.2 ⟨fun required => ?_, fun tag => ?_⟩
  · rw [satisfies_join, satisfies_join, hsatisfies, hsatisfies']
  · rw [carries_join, carries_join, hcarries, hcarries']

theorem join_content_congr (h : a.content = b.content) (l : Label) :
    (a.join l.content).content = (b.join l).content :=
  content_eq_iff.2 ((content_eq_iff.1 h).join (content_eq_iff.1 (content_content l)))

end Label

end ToolGate
