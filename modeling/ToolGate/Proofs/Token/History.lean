import ToolGate.Proofs.Token.Barring
import ToolGate.Proofs.Token.Lineage

namespace ToolGate

namespace Window

variable {w : Window} {a b : Number}

theorem status_eq_expired : w.status a = .expired ↔ ∃ e, w.expiresAt = some e ∧ e ≤ a := by
  have hany : w.expiresAt.any (· ≤ a) ↔ ∃ e, w.expiresAt = some e ∧ e ≤ a := by
    simp [Option.any_eq_true]
  rw [← hany, status]
  by_cases hend : w.expiresAt.any (· ≤ a)
  · simp [hend]
  · by_cases hearly : a < w.notBefore <;> simp [hend, hearly]

theorem status_expired_of_le (h : w.status a = .expired) (hab : a ≤ b) : w.status b = .expired := by
  obtain ⟨e, he, hea⟩ := status_eq_expired.1 h
  exact status_eq_expired.2 ⟨e, he, Number.le_trans hea hab⟩

end Window

/-- A later record of the same token. Once read back from a text, a bound has lost the sign of a
zero, which is the same instant. -/
structure Token.Later (k l : Token) : Prop where
  id : l.id = k.id
  issuer : l.issuer = k.issuer
  subject : l.subject = k.subject
  scope : l.scope = k.scope
  window : l.window = k.window ∨ l.window = k.window.keyed
  parent : l.parent = k.parent
  revoked : k.revoked = true → l.revoked = true

namespace Token.Later

variable {k l m : Token}

theorem refl (k : Token) : k.Later k := ⟨rfl, rfl, rfl, rfl, .inl rfl, rfl, fun h => h⟩

theorem trans (h : k.Later l) (h' : l.Later m) : k.Later m where
  id := h'.id.trans h.id
  issuer := h'.issuer.trans h.issuer
  subject := h'.subject.trans h.subject
  scope := h'.scope.trans h.scope
  window := by
    rcases h'.window with hm | hm <;> rcases h.window with hl | hl <;>
      simp [hm, hl, Window.keyed_keyed]
  parent := h'.parent.trans h.parent
  revoked := fun hk => h'.revoked (h.revoked hk)

theorem mark (k : Token) : k.Later { k with revoked := true } :=
  ⟨rfl, rfl, rfl, rfl, .inl rfl, rfl, fun _ => rfl⟩

theorem settled (k : Token) : k.Later k.settled := ⟨rfl, rfl, rfl, rfl, .inr rfl, rfl, fun h => h⟩

theorem status (h : k.Later l) (instant : Number) :
    l.window.status instant = k.window.status instant := by
  rcases h.window with hl | hl
  · rw [hl]
  · rw [hl, Window.status_keyed]

end Token.Later

namespace Table

inductive Step (t : Table) : Table → Prop
  | mint {clock ids r k u} : (t.mint clock ids r).1 = .ok (k, u) → Step t u
  | delegate {clock ids parent r k u} :
      (t.delegate clock ids parent r).1 = .ok (.ok (k, u)) → Step t u
  | revoke {id changed u} : t.revoke id = .ok (changed, u) → Step t u
  | reload {u} : Snapshot.read (Snapshot.write t) = .ok u → Step t u

def Later (t u : Table) : Prop :=
  Relation.ReflTransGen Step t u

def Keeps (t u : Table) : Prop :=
  ∀ id k, t.get? id = some k → ∃ l, u.get? id = some l ∧ k.Later l

variable {t u : Table} {k l a : Token} {id : String} {instant : Number}

theorem keeps_add (fresh : ¬t.has k.id) : t.Keeps (t.add k) :=
  fun _ l hl => ⟨l, get?_add_of_get? fresh hl, .refl l⟩

theorem Step.keeps (h : Step t u) (ht : t.Sound) : t.Keeps u := by
  cases h with
  | mint hstep =>
      obtain ⟨rfl, fresh, -⟩ := mintAs_ok hstep
      exact keeps_add fresh
  | delegate hstep =>
      obtain ⟨_, _, _, _, -, hadd⟩ := delegate_ok hstep
      obtain ⟨rfl, fresh, -⟩ := delegateAs_ok hadd
      exact keeps_add fresh
  | revoke hstep =>
      intro other k hk
      refine ⟨_, by rw [get?_revoke hstep, hk, Option.map_some], ?_⟩
      split
      · exact .mark k
      · exact .refl k
  | reload hstep =>
      obtain rfl : t.settled = u := Except.ok.inj (ht.read_write.symm.trans hstep)
      intro other k hk
      exact ⟨k.settled, by rw [get?_settled, hk, Option.map_some], .settled k⟩

theorem Step.reached (h : Step t u) (ht : t.Reached) : u.Reached := by
  cases h with
  | mint hstep => exact ht.mint hstep
  | delegate hstep => exact ht.delegate hstep
  | revoke hstep => exact ht.revoke hstep
  | reload hstep => exact .read hstep

theorem Later.reached (h : t.Later u) (ht : t.Reached) : u.Reached := by
  induction h with
  | refl => exact ht
  | tail _ hstep ih => exact hstep.reached ih

theorem Later.keeps (h : t.Later u) (ht : t.Reached) : t.Keeps u := by
  induction h with
  | refl => exact fun _ k hk => ⟨k, hk, .refl k⟩
  | tail hbefore hstep ih =>
      intro id k hk
      obtain ⟨l, hl, hkl⟩ := ih id k hk
      obtain ⟨m, hm, hlm⟩ := hstep.keeps (Later.reached hbefore ht).sound id l hl
      exact ⟨m, hm, hkl.trans hlm⟩

theorem Keeps.above (h : t.Keeps u) (hkl : k.Later l) (ha : t.Above k a) :
    ∃ b, u.Above l b ∧ a.Later b := by
  induction ha with
  | refl => exact ⟨l, .refl, hkl⟩
  | tail _ hstep ih =>
      obtain ⟨b, hb, hbl⟩ := ih
      obtain ⟨p, hp, hc⟩ := hstep
      obtain ⟨d, hd, hcd⟩ := h p _ hc
      exact ⟨d, hb.tail ⟨p, hbl.parent.trans hp, hd⟩, hcd⟩

theorem Sound.validate_eq (ht : t.Sound) (hk : t.get? id = some k) (instant : Number) :
    t.validate id instant =
      if (chain id t.tokens).any Token.revoked then .revoked
      else (k.window.status instant).tokenStatus := by
  have hrooted := ht.isRooted_chain hk
  rw [ht.chain_of_get? hk] at hrooted
  rw [validate, ht.chain_of_get? hk]
  simp only [hrooted, if_true]

theorem Sound.validate_eq_revoked (ht : t.Sound) (hk : t.get? id = some k) (instant : Number) :
    t.validate id instant = .revoked ↔ ∃ a, t.Above k a ∧ a.revoked = true := by
  have hstatus : (k.window.status instant).tokenStatus ≠ .revoked := by
    cases k.window.status instant <;> simp [WindowStatus.tokenStatus]
  rw [ht.validate_eq hk, ite_eq_left_iff]
  simp only [hstatus, imp_false, Classical.not_not, List.any_eq_true, ht.mem_chain hk]

theorem Sound.validate_eq_expired (ht : t.Sound) (hk : t.get? id = some k) (instant : Number) :
    t.validate id instant = .expired ↔
      t.validate id instant ≠ .revoked ∧ k.window.status instant = .expired := by
  rw [ht.validate_eq hk]
  split
  · simp
  · cases k.window.status instant <;> simp [WindowStatus.tokenStatus]

theorem standing_never_regresses (ht : t.Reached) (hlater : t.Later u) (hk : t.get? id = some k) :
    (∃ l, u.get? id = some l ∧ k.Later l) ∧
      (∀ a, t.validate id a = .revoked → ∀ b, u.validate id b = .revoked) ∧
      ∀ a, t.validate id a = .expired → ∀ b, a ≤ b →
        u.validate id b = .expired ∨ u.validate id b = .revoked := by
  have hkeeps := hlater.keeps ht
  have hu := (hlater.reached ht).sound
  obtain ⟨l, hl, hkl⟩ := hkeeps id k hk
  refine ⟨⟨l, hl, hkl⟩, fun a ha b => ?_, fun a ha b hab => ?_⟩
  · obtain ⟨m, hm, hrevoked⟩ := (ht.sound.validate_eq_revoked hk a).1 ha
    obtain ⟨n, hn, hmn⟩ := hkeeps.above hkl hm
    exact (hu.validate_eq_revoked hl b).2 ⟨n, hn, hmn.revoked hrevoked⟩
  · by_cases hrevoked : u.validate id b = .revoked
    · exact .inr hrevoked
    · have hexpired := ((ht.sound.validate_eq_expired hk a).1 ha).2
      refine .inl ((hu.validate_eq_expired hl b).2 ⟨hrevoked, ?_⟩)
      rw [hkl.status]
      exact Window.status_expired_of_le hexpired hab

open Line in
theorem standing_never_regresses_of_agent :
    (∃ l, cut.settled.get? "agent" = some l ∧ agent.Later l) ∧
      (cut.settled.validate "agent" 20 = .expired ∨ cut.settled.validate "agent" 20 = .revoked) ∧
      cut.settled.validate "agent" .nan = .revoked := by
  have hcut : grown.revoke "team" = .ok (true, cut) := by decide +kernel
  have hreload : cut.Later cut.settled := .single (.reload cut_reached.sound.read_write)
  have hlater : grown.Later cut.settled := .head (.revoke hcut) hreload
  have hexpired : grown.validate "agent" 9 = .expired := by decide +kernel
  have hrevoked : cut.validate "agent" 5 = .revoked := by decide +kernel
  have hgrown : grown.get? "agent" = some agent := by decide +kernel
  obtain ⟨hkept, -, hold⟩ := standing_never_regresses grown_reached hlater hgrown
  have hagent : cut.get? "agent" = some agent := by decide +kernel
  obtain ⟨-, hbarred, -⟩ := standing_never_regresses cut_reached hreload hagent
  exact ⟨hkept, hold 9 hexpired 20 (by decide +kernel), hbarred 5 hrevoked .nan⟩

end Table

end ToolGate
