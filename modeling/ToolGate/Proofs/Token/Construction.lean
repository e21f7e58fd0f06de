import ToolGate.Proofs.Token.Acceptance
import ToolGate.Proofs.Token.History

namespace ToolGate

structure Token.Unblank (k : Token) : Prop where
  id : ¬Text.allBlank k.id
  issuer : ¬Text.allBlank k.issuer
  subject : ¬Text.allBlank k.subject

def Token.unrevoked (k : Token) : Token := { k with revoked := false }

theorem Window.status_notBefore {w : Window} (h : w.isWellFormed) :
    w.status w.notBefore = .valid := by
  have hstart := ne_nan_of_isBound (isBound_of_isWellFormed h).1
  rw [status_eq_valid h hstart, Contains, ← Number.not_lt hstart hstart]
  exact ⟨Number.lt_irrefl _, fun e he => ((isWellFormed_iff.1 h).2 e he).2⟩

namespace Table

variable {t t' : Table} {k l : Token} {id p : String}

inductive Built : Table → Prop
  | empty : Built .empty
  | mint {t t' clock ids id r k} : Built t → r.id = some id →
      (t.mint clock ids r).1 = .ok (k, t') → Built t'
  | delegate {t t' clock ids id parent r k} : Built t → r.id = some id →
      (t.delegate clock ids parent r).1 = .ok (.ok (k, t')) → Built t'
  | revoke {t t' id changed} : Built t → t.revoke id = .ok (changed, t') → Built t'

theorem Built.reached (h : t.Built) : t.Reached := by
  induction h with
  | empty => exact .empty
  | mint _ _ hstep ih => exact ih.mint hstep
  | delegate _ _ hstep ih => exact ih.delegate hstep
  | revoke _ hstep ih => exact ih.revoke hstep

theorem Built.mark (h : t.Built) (ids : List String) (hids : ∀ id ∈ ids, t.has id) :
    (t.mark ids).Built := by
  induction ids generalizing t with
  | nil => rwa [mark_nil]
  | cons id ids ih =>
      obtain ⟨hid, hids⟩ := List.forall_mem_cons.1 hids
      obtain ⟨k, hk⟩ := Option.isSome_iff_exists.1 hid
      rw [mark_cons]
      refine ih (h.revoke (h.reached.sound.revoke_eq hk)) fun other hother => ?_
      rw [has_mark]
      exact hids other hother

theorem unblank_of_checks (hid : t.checkNewId k.id = .ok ())
    (hparties : checkParties k.id k.issuer k.subject = .ok ()) : k.Unblank := by
  obtain ⟨hissuer, hsubject⟩ := checkParties_ok.1 hparties
  exact ⟨(checkNewId_ok.1 hid).1, hissuer, hsubject⟩

theorem unblank_of_mintAs {clock : Clock} {r : MintRequest}
    (h : t.mintAs clock id r = .ok (k, t')) : k.Unblank := by
  simp only [mintAs, bind_ok, guard_ok, pure_ok, Prod.mk.injEq] at h
  obtain ⟨_, hid, _, hparties, -, window, -, -, rfl, -⟩ := h
  exact unblank_of_checks hid hparties

theorem unblank_of_delegateAs {scope : List String} {window : Window} {r : DelegationRequest}
    (h : t.delegateAs id l scope window r = .ok (k, t')) : k.Unblank := by
  simp only [delegateAs, bind_ok, pure_ok, Prod.mk.injEq] at h
  obtain ⟨_, hid, _, hparties, rfl, -⟩ := h
  exact unblank_of_checks hid hparties

theorem Built.unblank (h : t.Built) : ∀ k ∈ t.tokens, k.Unblank := by
  induction h with
  | empty => exact fun k hk => nomatch hk
  | mint _ _ hstep ih =>
      obtain ⟨rfl, -, -⟩ := mintAs_ok hstep
      exact List.forall_mem_cons.2 ⟨unblank_of_mintAs hstep, ih⟩
  | delegate _ _ hstep ih =>
      obtain ⟨_, _, _, _, -, hadd⟩ := delegate_ok hstep
      obtain ⟨rfl, -⟩ := delegateAs_ok hadd
      exact List.forall_mem_cons.2 ⟨unblank_of_delegateAs hadd, ih⟩
  | revoke hbuilt hstep ih =>
      obtain ⟨k, hk⟩ := stored_of_revoke hstep
      rw [hbuilt.reached.sound.revoke_eq hk] at hstep
      cases hstep
      refine List.forall_mem_map.2 fun l hl => ?_
      split <;> exact ⟨(ih l hl).id, (ih l hl).issuer, (ih l hl).subject⟩

def mintRequest (k : Token) : MintRequest :=
  ⟨some k.id, k.issuer, k.subject, k.scope, ⟨some k.window.notBefore, k.window.expiresAt⟩⟩

def delegationRequest (k : Token) : DelegationRequest :=
  ⟨some k.id, k.scope, ⟨some k.window.notBefore, k.window.expiresAt⟩, some k.subject, some k.issuer⟩

theorem checks_of_unblank (fresh : ¬t.has k.id) (h : k.Unblank) :
    t.checkNewId k.id = .ok () ∧ checkParties k.id k.issuer k.subject = .ok () :=
  ⟨checkNewId_ok.2 ⟨h.id, fresh⟩, checkParties_ok.2 ⟨h.issuer, h.subject⟩⟩

theorem mint_of_supports (fresh : ¬t.has k.id) (hk : t.Supports k) (hnames : k.Unblank)
    (hroot : k.parent = none) (unrevoked : k.revoked = false) (clock : Clock) (ids : IdSource) :
    (t.mint clock ids (mintRequest k)).1 = .ok (k, t.add k) := by
  obtain ⟨hid, hparties⟩ := checks_of_unblank fresh hnames
  have hscope := Scope.normalize_of_nodup hk.distinct
  obtain ⟨id, issuer, subject, scope, window, parent, revoked⟩ := k
  obtain rfl : parent = none := hroot
  obtain rfl : revoked = false := unrevoked
  simp only [mint, mintRequest, IdSource.take, mintAs, bind_ok, guard_ok, pure_ok, hscope,
    Bool.not_eq_true', Bool.not_eq_false]
  exact ⟨_, hid, _, hparties, hk.scope, window, rfl, hk.window, rfl⟩

theorem grant_of_supports (hk : t.Supports k) (hp : k.parent = some p) (hl : t.get? p = some l)
    {clock : Clock} {now : Number} (hnow : clock 0 = .ok now) (hvalid : t.validate p now = .valid) :
    t.grant clock p (delegationRequest k) = .ok (.ok (l, k.scope, k.window)) := by
  obtain ⟨m, hm, hscope, hwindow⟩ := hk.narrower p hp
  obtain rfl : l = m := Option.some_inj.1 (hl.symm.trans hm)
  simp only [grant, hl, hnow, hvalid, delegationRequest, Scope.normalize_of_nodup hk.distinct,
    hscope]
  refine bind_ok.2 ⟨k.window, rfl, ?_⟩
  simp only [hk.window, hwindow]
  rfl

theorem delegate_of_supports (fresh : ¬t.has k.id) (hk : t.Supports k) (hnames : k.Unblank)
    (unrevoked : k.revoked = false) (hp : k.parent = some p) (hl : t.get? p = some l)
    {clock : Clock} {now : Number} (hnow : clock 0 = .ok now) (hvalid : t.validate p now = .valid)
    (ids : IdSource) :
    (t.delegate clock ids p (delegationRequest k)).1 = .ok (.ok (k, t.add k)) := by
  obtain ⟨hid, hparties⟩ := checks_of_unblank fresh hnames
  have hadd : t.delegateAs k.id l k.scope k.window (delegationRequest k) = .ok (k, t.add k) := by
    obtain rfl := (get?_some hl).2
    obtain ⟨id, issuer, subject, scope, window, parent, revoked⟩ := k
    obtain rfl : parent = some l.id := hp
    obtain rfl : revoked = false := unrevoked
    exact bind_ok.2 ⟨_, hid, bind_ok.2 ⟨_, hparties, rfl⟩⟩
  simp only [delegate, grant_of_supports hk hp hl hnow hvalid]
  exact map_ok.2 ⟨_, hadd, rfl⟩

theorem Sound.validate_start (ht : t.Sound) (unrevoked : ∀ k ∈ t.tokens, k.revoked = false)
    (hl : t.get? p = some l) : t.validate p l.window.notBefore = .valid := by
  have hchain : ¬(chain p t.tokens).any Token.revoked := by
    simp only [List.any_eq_true, not_exists, not_and, Bool.not_eq_true]
    exact fun k hk => unrevoked k (mem_of_mem_chain hk)
  rw [ht.validate_eq hl, if_neg hchain, Window.status_notBefore (ht.supports hl).window]
  rfl

theorem Sound.built (ht : t.Sound) (unrevoked : ∀ k ∈ t.tokens, k.revoked = false)
    (hnames : ∀ k ∈ t.tokens, k.Unblank) : t.Built := by
  induction ht with
  | empty => exact .empty
  | @add t k ht fresh hk ih =>
      obtain ⟨hnew, unrevoked⟩ := List.forall_mem_cons.1 unrevoked
      obtain ⟨hname, hnames⟩ := List.forall_mem_cons.1 hnames
      have hbuilt := ih unrevoked hnames
      -- the request gives the ID, so no name is drawn
      let ids : IdSource := ⟨fun _ => "", 0⟩
      cases hp : k.parent with
      | none =>
          exact hbuilt.mint rfl
            (mint_of_supports fresh hk hname hp hnew (ManualClock.start 0).clock ids)
      | some p =>
          obtain ⟨l, hl, -⟩ := hk.narrower p hp
          have hnow : (ManualClock.start l.window.notBefore).clock 0 = .ok l.window.notBefore := rfl
          have hvalid := ht.validate_start unrevoked hl
          exact hbuilt.delegate rfl
            (delegate_of_supports fresh hk hname hnew hp hl hnow hvalid ids)

def revokedIds (t : Table) : List String :=
  (t.tokens.filter Token.revoked).map Token.id

theorem Sound.mark_unrevoked (ht : t.Sound) :
    mark ⟨t.tokens.map Token.unrevoked⟩ t.revokedIds = t := by
  refine congrArg Table.mk ?_
  rw [List.map_map]
  refine (List.map_congr_left fun k hk => ?_).trans (List.map_id _)
  have hids : k.id ∈ t.revokedIds ↔ k.revoked = true := by
    simp only [revokedIds, List.mem_map, List.mem_filter]
    constructor
    · rintro ⟨l, ⟨hl, hrevoked⟩, hid⟩
      obtain rfl : l = k := ht.eq_of_id hl hk hid
      exact hrevoked
    · exact fun hrevoked => ⟨k, ⟨hk, hrevoked⟩, rfl⟩
  have hid : k.unrevoked.id = k.id := rfl
  simp only [Function.comp, hid, hids, id]
  obtain ⟨_, _, _, _, _, _, revoked⟩ := k
  cases revoked <;> rfl

theorem Sound.built_of_unblank (ht : t.Sound) (hnames : ∀ k ∈ t.tokens, k.Unblank) : t.Built := by
  have hsound : Sound ⟨t.tokens.map Token.unrevoked⟩ := ht.map fun k => rfl
  have hbuilt : Built ⟨t.tokens.map Token.unrevoked⟩ := by
    refine hsound.built (List.forall_mem_map.2 fun k _ => rfl) (List.forall_mem_map.2 ?_)
    exact fun k hk => ⟨(hnames k hk).id, (hnames k hk).issuer, (hnames k hk).subject⟩
  have hstored : ∀ id ∈ t.revokedIds, has ⟨t.tokens.map Token.unrevoked⟩ id := by
    intro id hid
    simp only [revokedIds, List.mem_map, List.mem_filter] at hid
    obtain ⟨k, ⟨hk, -⟩, rfl⟩ := hid
    rw [has, get?_map (f := Token.unrevoked) fun _ => rfl, Option.isSome_map]
    exact has_of_get? (ht.get?_of_mem hk)
  have hmarked := hbuilt.mark t.revokedIds hstored
  rwa [ht.mark_unrevoked] at hmarked

theorem built_iff_read_write : t.Built ↔
    (∃ t', Snapshot.read (Snapshot.write t) = .ok t') ∧
      ∀ k ∈ t.tokens, k.Unblank ∧ ∀ e, k.window.expiresAt = some e → e.isFinite := by
  constructor
  · intro h
    have hsound := h.reached.sound
    refine ⟨⟨_, hsound.read_write⟩, fun k hk => ⟨h.unblank k hk, fun e he => ?_⟩⟩
    have hwindow := (hsound.supports (hsound.get?_of_mem hk)).window
    exact Snapshot.isFinite_of_isBound ((Window.isBound_of_isWellFormed hwindow).2 e he)
  · rintro ⟨⟨t', hread⟩, hall⟩
    have hsound := sound_of_read_write (fun k hk => (hall k hk).2) hread
    exact hsound.built_of_unblank fun k hk => (hall k hk).1

def blank : Token := ⟨" ", "host", "agent", ["a"], ⟨0, none⟩, none, false⟩

theorem not_read_write_iff_built :
    ¬∀ t : Table, (∃ t', Snapshot.read (Snapshot.write t) = .ok t') ↔ t.Built := by
  intro h
  have hshows : empty.Supports blank :=
    ⟨⟨by decide, by decide, by decide⟩, by decide +kernel, by decide, by decide +kernel,
      fun p hp => nomatch hp⟩
  have hsound : (empty.add blank).Sound := .add .empty Bool.false_ne_true hshows
  have hbuilt := (h (empty.add blank)).1 ⟨_, hsound.read_write⟩
  exact (hbuilt.unblank blank List.mem_cons_self).id (by decide +kernel)

end Table

end ToolGate
