import Mathlib.Data.List.Forall2
import ToolGate.Token.Table

namespace ToolGate

theorem WindowStatus.tokenStatus_eq_valid {s : WindowStatus} :
    s.tokenStatus = .valid ↔ s = .valid := by
  cases s <;> simp [tokenStatus]

def Token.RevokedTo (k l : Token) : Prop :=
  l = k ∨ l = { k with revoked := true }

theorem Token.RevokedTo.same {k l : Token} (h : k.RevokedTo l) :
    l.id = k.id ∧ l.parent = k.parent := by
  rcases h with rfl | rfl <;> exact ⟨rfl, rfl⟩

namespace Table

theorem validate_eq_valid {t : Table} {id : String} {instant : Number} :
    t.validate id instant = .valid ↔
      ∃ k ks, chain id t.tokens = k :: ks ∧ (∀ a ∈ k :: ks, a.revoked = false) ∧
        isRooted (k :: ks) ∧ k.window.status instant = .valid := by
  unfold validate
  cases hchain : chain id t.tokens with
  | nil => simp
  | cons k ks =>
      have hunrevoked : (∀ a ∈ k :: ks, a.revoked = false) ↔ ¬(k :: ks).any Token.revoked := by
        simp
      simp only [List.cons.injEq, existsAndEq, true_and]
      by_cases hrevoked : (k :: ks).any Token.revoked
      · simp only [hunrevoked, hrevoked, if_true]
        simp
      · by_cases hrooted : isRooted (k :: ks)
        · simp only [hunrevoked, hrevoked, hrooted, if_true]
          simp [WindowStatus.tokenStatus_eq_valid]
        · simp [hrevoked, hrooted]

def RevokedTo (t u : Table) : Prop :=
  List.Forall₂ Token.RevokedTo t.tokens u.tokens

theorem forall₂_chain {R : Token → Token → Prop} {ks ls : List Token}
    (same : ∀ k l, R k l → l.id = k.id ∧ l.parent = k.parent) (h : List.Forall₂ R ks ls)
    (id : String) : List.Forall₂ R (chain id ks) (chain id ls) := by
  induction h generalizing id with
  | nil => exact .nil
  | @cons k l ks ls hkl _ ih =>
      obtain ⟨hid, hparent⟩ := same k l hkl
      rw [chain, chain, hid, hparent]
      split
      · cases k.parent with
        | none => exact .cons hkl .nil
        | some p => exact .cons hkl (ih p)
      · exact ih id

theorem chain_map {f : Token → Token} (same : ∀ k, (f k).id = k.id ∧ (f k).parent = k.parent)
    (id : String) (ks : List Token) : chain id (ks.map f) = (chain id ks).map f := by
  induction ks generalizing id with
  | nil => rfl
  | cons k ks ih =>
      rw [List.map_cons, chain, chain, (same k).1, (same k).2]
      split
      · cases k.parent with
        | none => rfl
        | some p => exact congrArg (f k :: ·) (ih p)
      · exact ih id

theorem eq_of_unrevoked {ks ls : List Token} (h : List.Forall₂ Token.RevokedTo ks ls)
    (unrevoked : ∀ l ∈ ls, l.revoked = false) : ks = ls := by
  induction h with
  | nil => rfl
  | cons hkl _ ih =>
      obtain ⟨hl, hls⟩ := List.forall_mem_cons.1 unrevoked
      rcases hkl with rfl | rfl
      · rw [ih hls]
      · cases hl

theorem RevokedTo.validate {t u : Table} (h : t.RevokedTo u) {id : String} {instant : Number}
    (hu : u.validate id instant = .valid) : t.validate id instant = .valid := by
  obtain ⟨k, ks, hchain, unrevoked, hrest⟩ := validate_eq_valid.1 hu
  have hrelated := forall₂_chain (fun _ _ => Token.RevokedTo.same) h id
  have hsame := eq_of_unrevoked hrelated (hchain ▸ unrevoked)
  exact validate_eq_valid.2 ⟨k, ks, hsame.trans hchain, unrevoked, hrest⟩

theorem RevokedTo.get? {t u : Table} (h : t.RevokedTo u) {id : String} {l : Token}
    (hl : u.get? id = some l) : ∃ k, t.get? id = some k ∧ k.RevokedTo l := by
  unfold RevokedTo at h
  unfold Table.get? at hl ⊢
  generalize t.tokens = ks, u.tokens = ls at h hl
  induction h with
  | nil => cases hl
  | @cons k l' ks ls hkl _ ih =>
      obtain ⟨hid, -⟩ := Token.RevokedTo.same hkl
      by_cases hk : k.id = id
      · rw [List.find?_cons_of_pos (by simpa [hid] using hk)] at hl
        cases hl
        exact ⟨k, List.find?_cons_of_pos (by simpa using hk), hkl⟩
      · rw [List.find?_cons_of_neg (by simpa [hid] using hk)] at hl
        rw [List.find?_cons_of_neg (by simpa using hk)]
        exact ih hl

end Table

end ToolGate
