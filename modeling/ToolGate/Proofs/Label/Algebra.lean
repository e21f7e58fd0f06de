import Mathlib.Data.Fintype.EquivFin
import Mathlib.Order.WithBot
import ToolGate.Proofs.Label.Join

namespace ToolGate

namespace Integrity

variable {a b : Integrity}

theorem eq_of_satisfies (h : ∀ required, a.satisfies required ↔ b.satisfies required) : a = b := by
  have hb : b = a ∨ a = .untrusted := by
    have hself := (h a).1 ((satisfies_iff a a).2 (.inr rfl))
    exact ((satisfies_iff b a).1 hself).symm
  have ha : a = b ∨ b = .untrusted := by
    have hself := (h b).2 ((satisfies_iff b b).2 (.inr rfl))
    exact ((satisfies_iff a b).1 hself).symm
  grind

end Integrity

namespace Confidentiality

variable {a b : Confidentiality} {tag : String} {forbidden : List String}

/-- The tags as a set; every universal label means the same. -/
def meaning (a : Confidentiality) : WithTop (Finset String) :=
  if a.universal then ⊤ else a.tags.toFinset

theorem carries_iff_meaning :
    a.carries tag ↔ (({tag} : Finset String) : WithTop _) ≤ a.meaning := by
  rw [carries_iff, meaning]
  split
  · simp_all
  · simp_all

theorem universal_of_carries (h : ∀ tag, a.carries tag) : a.universal := by
  obtain ⟨tag, htag⟩ := Infinite.exists_notMem_finset a.tags.toFinset
  rw [List.mem_toFinset] at htag
  exact ((carries_iff a tag).1 (h tag)).resolve_right htag

theorem meaning_eq_iff : a.meaning = b.meaning ↔ ∀ tag, a.carries tag ↔ b.carries tag := by
  constructor
  · intro h tag
    rw [carries_iff_meaning, carries_iff_meaning, h]
  · intro h
    have hall (c : Confidentiality) : c.universal ↔ ∀ tag, c.carries tag :=
      ⟨fun hc tag => (carries_iff c tag).2 (.inl hc), universal_of_carries⟩
    have huniversal : a.universal ↔ b.universal := by
      rw [hall, hall]
      exact forall_congr' h
    unfold meaning
    by_cases ha : a.universal
    · rw [if_pos ha, if_pos (huniversal.1 ha)]
    · have hb := mt huniversal.2 ha
      rw [if_neg ha, if_neg hb]
      refine congrArg _ (Finset.ext fun tag => ?_)
      simpa [carries_iff, ha, hb] using h tag

theorem mem_present : tag ∈ a.present forbidden ↔ tag ∈ forbidden ∧ a.carries tag := by
  simp [present]

theorem present_congr (h : ∀ tag, a.carries tag ↔ b.carries tag) (forbidden : List String) :
    a.present forbidden = b.present forbidden :=
  List.filter_congr fun tag _ => Bool.eq_iff_iff.2 (h tag)

theorem present_join (a b : Confidentiality) (forbidden : List String) :
    (a.join b).present forbidden =
      forbidden.filter fun tag => tag ∈ a.present forbidden ∨ tag ∈ b.present forbidden := by
  refine List.filter_congr fun tag htag => Bool.eq_iff_iff.2 ?_
  simp [carries_join, mem_present, htag]

end Confidentiality

namespace Label

variable {a b l m : Label} {ls ms : List Label}

/-- The same label but for the tags that a universal one holds. -/
structure Alike (a b : Label) : Prop where
  integrity : a.integrity = b.integrity
  confidentiality : a.confidentiality.meaning = b.confidentiality.meaning

theorem alike_iff : a.Alike b ↔
    (∀ required, a.integrity.satisfies required ↔ b.integrity.satisfies required) ∧
      ∀ tag, a.confidentiality.carries tag ↔ b.confidentiality.carries tag := by
  rw [← Confidentiality.meaning_eq_iff]
  constructor
  · rintro ⟨hintegrity, hmeaning⟩
    exact ⟨fun required => by rw [hintegrity], hmeaning⟩
  · rintro ⟨hsatisfies, hmeaning⟩
    exact ⟨Integrity.eq_of_satisfies hsatisfies, hmeaning⟩

theorem satisfies_join (a b : Label) (required : Integrity) :
    (a.join b).integrity.satisfies required ↔
      a.integrity.satisfies required ∧ b.integrity.satisfies required :=
  Integrity.satisfies_join ..

theorem carries_join (a b : Label) (tag : String) :
    (a.join b).confidentiality.carries tag ↔
      a.confidentiality.carries tag ∨ b.confidentiality.carries tag :=
  Confidentiality.carries_join ..

theorem join_assoc (a b c : Label) : ((a.join b).join c).Alike (a.join (b.join c)) := by
  refine alike_iff.2 ⟨fun required => ?_, fun tag => ?_⟩
  · simp only [satisfies_join, and_assoc]
  · simp only [carries_join, or_assoc]

theorem join_comm (a b : Label) : (a.join b).Alike (b.join a) := by
  refine alike_iff.2 ⟨fun required => ?_, fun tag => ?_⟩
  · rw [satisfies_join, satisfies_join, and_comm]
  · rw [carries_join, carries_join, or_comm]

theorem join_self (a : Label) : (a.join a).Alike a := by
  refine alike_iff.2 ⟨fun required => ?_, fun tag => ?_⟩
  · rw [satisfies_join, and_self_iff]
  · rw [carries_join, or_self_iff]

theorem worst_join (a : Label) : (worst.join a).Alike worst := by
  refine alike_iff.2 ⟨fun required => ?_, fun tag => ?_⟩
  · rw [satisfies_join]
    refine and_iff_left_of_imp fun h => (Integrity.satisfies_iff ..).2 (.inl ?_)
    exact ((Integrity.satisfies_iff .untrusted required).1 h).elim id Eq.symm
  · exact iff_of_true ((carries_join ..).2 (.inl rfl)) rfl

theorem Alike.trans {c : Label} (h : a.Alike b) (h' : b.Alike c) : a.Alike c :=
  ⟨h.integrity.trans h'.integrity, h.confidentiality.trans h'.confidentiality⟩

theorem satisfies_joinAll_iff (required : Integrity) :
    (l.joinAll ls).integrity.satisfies required ↔
      ∀ k ∈ l :: ls, k.integrity.satisfies required := by
  rw [satisfies_joinAll, List.forall_mem_cons]

theorem carries_joinAll_iff (tag : String) :
    (l.joinAll ls).confidentiality.carries tag ↔
      ∃ k ∈ l :: ls, k.confidentiality.carries tag := by
  rw [carries_joinAll]
  simp

theorem joinAll_congr (h : ∀ k, k ∈ l :: ls ↔ k ∈ m :: ms) :
    (l.joinAll ls).Alike (m.joinAll ms) := by
  refine alike_iff.2 ⟨fun required => ?_, fun tag => ?_⟩
  · simp only [satisfies_joinAll_iff, h]
  · simp only [carries_joinAll_iff, h]

theorem join_lawful :
    (∀ a b c : Label, ((a.join b).join c).Alike (a.join (b.join c))) ∧
    (∀ a b : Label, (a.join b).Alike (b.join a)) ∧
    (∀ a : Label, (a.join a).Alike a) ∧
    (∀ a : Label, (worst.join a).Alike worst ∧ (a.join worst).Alike worst) ∧
    (∀ (a b : Label) (required : Integrity), (a.join b).integrity.satisfies required ↔
      a.integrity.satisfies required ∧ b.integrity.satisfies required) ∧
    (∀ (a b : Label) (forbidden : List String), (a.join b).confidentiality.present forbidden =
      forbidden.filter fun tag => tag ∈ a.confidentiality.present forbidden ∨
        tag ∈ b.confidentiality.present forbidden) ∧
    ∀ (l m : Label) (ls ms : List Label), (∀ k, k ∈ l :: ls ↔ k ∈ m :: ms) →
      (l.joinAll ls).Alike (m.joinAll ms) ∧
      (∀ required, (l.joinAll ls).integrity.satisfies required =
        (m.joinAll ms).integrity.satisfies required) ∧
      ∀ forbidden, (l.joinAll ls).confidentiality.present forbidden =
        (m.joinAll ms).confidentiality.present forbidden := by
  refine ⟨join_assoc, join_comm, join_self, fun a => ⟨worst_join a, ?_⟩, satisfies_join,
    fun a b => Confidentiality.present_join _ _, fun l m ls ms h => ?_⟩
  · exact (join_comm a worst).trans (worst_join a)
  · have halike := joinAll_congr h
    obtain ⟨hsatisfies, hcarries⟩ := alike_iff.1 halike
    exact ⟨halike, fun required => Bool.eq_iff_iff.2 (hsatisfies required),
      Confidentiality.present_congr hcarries⟩

namespace Shuffled

def mail : Label := ⟨.verified "address", .ofTags ["pii", "hr"] false⟩

def note : Label := ⟨.trusted, .ofTags ["hr", "legal"] false⟩

def page : Label := ⟨.untrusted, .ofTags ["web"] true⟩

end Shuffled

open Shuffled in
theorem join_lawful_of_shuffled :
    (mail.joinAll [note]).Alike (note.joinAll [note, mail]) ∧
      mail.joinAll [note] ≠ note.joinAll [note, mail] ∧
      (page.join mail).Alike (mail.join page) ∧
      ∀ forbidden, (page.joinAll [mail, note]).confidentiality.present forbidden =
        (note.joinAll [mail, page, mail]).confidentiality.present forbidden := by
  obtain ⟨-, hcomm, -, -, -, -, hfold⟩ := join_lawful
  refine ⟨(hfold mail note [note] [note, mail] ?_).1, by decide +kernel, hcomm page mail,
    (hfold page note [mail, note] [mail, page, mail] ?_).2.2⟩
  · simp only [List.mem_cons]
    grind
  · simp only [List.mem_cons]
    grind

end Label

end ToolGate
