import Mathlib.Data.List.DropRight
import ToolGate.Label.Integrity

namespace ToolGate

namespace Text

variable {cs : List Char}

def NoBlankEnds (cs : List Char) : Prop :=
  (∀ c, cs.head? = some c → ¬isBlank c) ∧ ∀ c, cs.getLast? = some c → ¬isBlank c

theorem trim_eq (cs : List Char) : trim cs = (cs.dropWhile isBlank).rdropWhile isBlank :=
  rfl

theorem trim_eq_self_iff : trim cs = cs ↔ NoBlankEnds cs := by
  constructor
  · intro h
    -- neither end can have lost anything, as each loss makes the text shorter
    have hback : trim cs <+: cs.dropWhile isBlank := List.rdropWhile_prefix _ _
    have hfront : cs.dropWhile isBlank <:+ cs := List.dropWhile_suffix _
    rw [h] at hback
    have hdropped : cs.dropWhile isBlank = cs := hfront.eq_of_length_le hback.length_le
    rw [trim_eq, hdropped] at h
    constructor
    · intro c hc
      have hhead := List.head?_dropWhile_not isBlank cs
      rw [hdropped, hc] at hhead
      simp [hhead]
    · intro c hc
      have hne : cs ≠ [] := by
        rintro rfl
        cases hc
      have hlast := List.rdropWhile_eq_self_iff.1 h hne
      rw [List.getLast?_eq_some_getLast hne] at hc
      rwa [← Option.some.inj hc]
  · rintro ⟨hhead, hlast⟩
    have hfront : cs.dropWhile isBlank = cs := by
      cases cs with
      | nil => rfl
      | cons c cs => exact List.dropWhile_cons_of_neg (hhead c rfl)
    rw [trim_eq, hfront]
    exact List.rdropWhile_eq_self_iff.2 fun hne => hlast _ (List.getLast?_eq_some_getLast hne)

end Text

namespace Integrity

open Text (NoBlankEnds)

variable {s tag : String} {start cs rest ts : List Char} {a : Integrity}

structure IsTag (tag : String) : Prop where
  nonempty : tag ≠ ""
  plain : ∀ c ∈ tag.toList, c ≠ '(' ∧ c ≠ ')'
  ends : NoBlankEnds tag.toList

inductive Spells : Integrity → String → Prop
  | untrusted : Spells .untrusted "Untrusted"
  | trusted : Spells .trusted "Trusted"
  | verified {t} : IsTag t → Spells (.verified t) ("Verified(" ++ t ++ ")")

theorem behind?_eq_some : behind? start cs = some rest ↔ cs = start ++ rest := by
  induction start generalizing cs with
  | nil => simp [behind?]
  | cons c start ih =>
      cases cs with
      | nil => simp [behind?]
      | cons d cs =>
          rw [behind?, List.cons_append, List.cons.injEq]
          split
          · rename_i heq
            rw [ih]
            simp [heq]
          · rename_i hne
            simp [Ne.symm hne]

theorem enclosed?_eq_some : enclosed? cs = some ts ↔
    cs = "Verified(".toList ++ (ts ++ [')']) ∧ ts ≠ [] ∧ ∀ c ∈ ts, c ≠ '(' ∧ c ≠ ')' := by
  unfold enclosed?
  constructor
  · intro h
    split at h
    · cases h
    · rename_i rest hrest
      generalize htag : rest.takeWhile (!isParenthesis ·) = tag at h
      have hprefix : tag <+: rest := htag ▸ List.takeWhile_prefix _
      obtain ⟨⟨hne, hend⟩, hts⟩ := Option.ite_none_right_eq_some.1 h
      cases hts
      refine ⟨?_, hne, fun c hc => ?_⟩
      · rw [behind?_eq_some.1 hrest, ← hend, List.prefix_iff_eq_append.1 hprefix]
      · rw [← htag] at hc
        simpa [isParenthesis] using List.mem_takeWhile_imp hc
  · rintro ⟨rfl, hne, hplain⟩
    have hinside : ∀ c ∈ ts, (!isParenthesis c) = true := by
      intro c hc
      simpa [isParenthesis] using hplain c hc
    have htag : (ts ++ [')']).takeWhile (!isParenthesis ·) = ts := by
      rw [List.takeWhile_append_of_pos hinside]
      exact List.append_nil ts
    have hend : (ts ++ [')']).drop ts.length = [')'] := List.drop_left
    rw [behind?_eq_some.2 rfl]
    simp only [htag, hend]
    exact if_pos ⟨hne, trivial⟩

theorem verified_text (tag : String) :
    (text (.verified tag)).toList = "Verified(".toList ++ (tag.toList ++ [')']) := by
  simp [text, String.toList_append]

theorem text_verified_ne (tag : String) :
    text (.verified tag) ≠ text .untrusted ∧ text (.verified tag) ≠ text .trusted := by
  have hfirst : (text (.verified tag)).toList.head? = some 'V' := by
    rw [verified_text]
    rfl
  constructor
  · intro h
    rw [h] at hfirst
    exact absurd hfirst (by decide)
  · intro h
    rw [h] at hfirst
    exact absurd hfirst (by decide)

theorem parse?_verified (h : IsTag tag) : parse? (text (.verified tag)) = some (.verified tag) := by
  have hchars := enclosed?_eq_some.2 ⟨verified_text tag, by simpa using h.nonempty, h.plain⟩
  obtain ⟨huntrusted, htrusted⟩ := text_verified_ne tag
  rw [parse?, if_neg huntrusted, if_neg htrusted, hchars]
  simp only [if_pos (Text.trim_eq_self_iff.2 h.ends), String.ofList_toList]

theorem Spells.parse? (h : Spells a s) : parse? s = some a := by
  cases h with
  | untrusted => decide
  | trusted => decide
  | verified htag => exact parse?_verified htag

theorem spells_of_parse? (h : parse? s = some a) : Spells a s := by
  unfold Integrity.parse? at h
  split at h
  · rename_i hs
    cases h
    exact hs ▸ .untrusted
  · split at h
    · rename_i hs
      cases h
      exact hs ▸ .trusted
    · cases htag : enclosed? s.toList with
      | none => simp [htag] at h
      | some ts =>
          simp only [htag, Option.ite_none_right_eq_some, Option.some.injEq] at h
          obtain ⟨htrim, rfl⟩ := h
          obtain ⟨hs, hne, hplain⟩ := enclosed?_eq_some.1 htag
          obtain rfl : s = "Verified(" ++ String.ofList ts ++ ")" := by
            rw [← String.toList_inj, hs]
            simp [String.toList_append]
          refine .verified ⟨by simpa using hne, ?_, ?_⟩
          · rwa [String.toList_ofList]
          · rw [String.toList_ofList]
            exact Text.trim_eq_self_iff.1 htrim

theorem parse?_eq_some : parse? s = some a ↔ Spells a s :=
  ⟨spells_of_parse?, Spells.parse?⟩

theorem Spells.text_eq (h : Spells a s) : a.text = s := by
  cases h <;> rfl

theorem spells_text : Spells a a.text ↔ ∀ tag, a = .verified tag → IsTag tag := by
  constructor
  · rintro h tag rfl
    generalize hs : text (.verified tag) = s at h
    cases h with
    | verified htag => exact htag
  · intro h
    cases a with
    | untrusted => exact .untrusted
    | trusted => exact .trusted
    | verified tag => exact .verified (h tag rfl)

theorem parse?_exact :
    (∀ s, parse? s ≠ none ↔ s = "Untrusted" ∨ s = "Trusted" ∨
      ∃ tag, s = "Verified(" ++ tag ++ ")" ∧ IsTag tag) ∧
    (∀ s, parse? s ≠ none → (parse? s).map text = some s) ∧
    ∀ a : Integrity, parse? a.text = some a ↔ ∀ tag, a = .verified tag → IsTag tag := by
  refine ⟨fun s => ?_, fun s hs => ?_, fun a => parse?_eq_some.trans spells_text⟩
  · rw [Option.ne_none_iff_exists']
    simp only [parse?_eq_some]
    constructor
    · rintro ⟨a, h⟩
      cases h with
      | untrusted => exact .inl rfl
      | trusted => exact .inr (.inl rfl)
      | verified htag => exact .inr (.inr ⟨_, rfl, htag⟩)
    · rintro (rfl | rfl | ⟨tag, rfl, htag⟩)
      · exact ⟨_, .untrusted⟩
      · exact ⟨_, .trusted⟩
      · exact ⟨_, .verified htag⟩
  · obtain ⟨a, ha⟩ := Option.ne_none_iff_exists'.1 hs
    rw [ha, Option.map_some, (parse?_eq_some.1 ha).text_eq]

theorem parse?_exact_of_line_break :
    parse? "Verified(mail\nbox)" = some (.verified "mail\nbox") := by
  obtain ⟨-, -, hlabel⟩ := parse?_exact
  refine (hlabel (.verified "mail\nbox")).2 fun tag htag => ?_
  cases htag
  refine ⟨by decide, by simp, fun c hc => ?_, fun c hc => ?_⟩
  · cases hc
    decide
  · cases hc
    decide

example : parse? "Verified(mail\u2003)" = none ∧ parse? "Verified(mail))" = none := by
  decide

end Integrity

end ToolGate
