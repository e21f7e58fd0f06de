import ToolGate.Proofs.Number.Order
import ToolGate.Token.Basic

namespace ToolGate

namespace Window

theorem isBound_iff {x : Number} : isBound x ↔ x.isSafeInteger ∧ Number.zero ≤ x := by
  simp [isBound]

theorem ne_nan_of_isBound {x : Number} (h : isBound x) : x ≠ .nan := by
  rintro rfl
  cases h

theorem isWellFormed_iff {w : Window} :
    w.isWellFormed ↔
      isBound w.notBefore ∧ ∀ e, w.expiresAt = some e → isBound e ∧ w.notBefore < e := by
  simp [isWellFormed, Option.all_eq_true]

theorem isBound_of_isWellFormed {w : Window} (h : w.isWellFormed) :
    isBound w.notBefore ∧ ∀ e, w.expiresAt = some e → isBound e :=
  (isWellFormed_iff.1 h).imp_right fun hend e he => (hend e he).1

theorem isNarrower_iff {outer inner : Window} :
    outer.isNarrower inner ↔ ¬inner.notBefore < outer.notBefore ∧
      ∃ e, inner.expiresAt = some e ∧ ∀ last, outer.expiresAt = some last → e < last := by
  cases he : inner.expiresAt <;> simp [isNarrower, he, Option.all_eq_true]

def keyed (w : Window) : Window :=
  ⟨w.notBefore.key, w.expiresAt.map Number.key⟩

theorem keyed_keyed (w : Window) : w.keyed.keyed = w.keyed := by
  obtain ⟨start, last⟩ := w
  cases last <;> simp [keyed, Number.key_key]

theorem isBound_key (x : Number) : isBound x.key = isBound x := by
  have hle : decide (Number.zero ≤ x.key) = decide (Number.zero ≤ x) :=
    decide_eq_decide.2 (Number.le_key _ x)
  rw [isBound, isBound, Number.isSafeInteger_key, hle]

theorem isWellFormed_keyed (w : Window) : w.keyed.isWellFormed = w.isWellFormed := by
  obtain ⟨start, last⟩ := w
  cases last <;> simp [keyed, isWellFormed, isBound_key, Number.key_lt, Number.lt_key]

theorem isNarrower_keyed (outer inner : Window) :
    outer.keyed.isNarrower inner.keyed = outer.isNarrower inner := by
  obtain ⟨outerStart, outerLast⟩ := outer
  obtain ⟨innerStart, innerLast⟩ := inner
  cases innerLast <;> cases outerLast <;>
    simp [keyed, isNarrower, Number.key_lt, Number.lt_key]

theorem status_keyed (w : Window) (instant : Number) : w.keyed.status instant = w.status instant := by
  obtain ⟨start, last⟩ := w
  cases last <;> simp [keyed, status, Number.key_le, Number.lt_key]

theorem isWellFormed_congr {v w : Window} (h : v.keyed = w.keyed) :
    v.isWellFormed = w.isWellFormed := by
  rw [← isWellFormed_keyed v, h, isWellFormed_keyed]

theorem isNarrower_congr {v v' w w' : Window} (hv : v.keyed = v'.keyed) (hw : w.keyed = w'.keyed) :
    v.isNarrower w = v'.isNarrower w' := by
  rw [← isNarrower_keyed v, hv, hw, isNarrower_keyed]

end Window

namespace Token

def settled (k : Token) : Token := { k with window := k.window.keyed }

def terms (k : Token) : Token := { k.settled with revoked := false }

theorem terms_eq_iff {k l : Token} :
    k.terms = l.terms ↔ k.id = l.id ∧ k.issuer = l.issuer ∧ k.subject = l.subject ∧
      k.scope = l.scope ∧ k.window.keyed = l.window.keyed ∧ k.parent = l.parent := by
  simp [terms, settled]

theorem terms_settled (k : Token) : k.settled.terms = k.terms := by
  simp [terms, settled, Window.keyed_keyed]

end Token

end ToolGate
