import Mathlib.Data.List.Nodup
import ToolGate.Label.Confidentiality
import ToolGate.Proofs.Json.Shapes
import ToolGate.Proofs.Token.Terms
import ToolGate.Token.Snapshot

namespace ToolGate

namespace Scope

theorem mem_normalize {scope : List String} {resource : String} :
    resource ∈ normalize scope ↔ resource ∈ scope :=
  List.mem_eraseDups

theorem normalize_of_nodup {scope : List String} (h : scope.Nodup) : normalize scope = scope := by
  induction scope with
  | nil => rfl
  | cons resource scope ih =>
      obtain ⟨hnew, hrest⟩ := List.nodup_cons.1 h
      have hfilter : scope.filter (fun other => !other == resource) = scope := by
        rw [List.filter_eq_self]
        intro other hother
        simpa using fun heq : other = resource => hnew (heq ▸ hother)
      have hih : scope.eraseDups = scope := ih hrest
      rw [normalize, List.eraseDups_cons, hfilter, hih]

theorem normalize_eq_iff {scope : List String} : scope = normalize scope ↔ scope.Nodup :=
  ⟨fun h => h ▸ nodup_eraseDups scope, fun h => (normalize_of_nodup h).symm⟩

theorem isNarrower_subset {child parent : List String} (h : isNarrower child parent) :
    ∀ resource ∈ child, resource ∈ parent := by
  intro resource hmem
  simp only [isNarrower, Bool.and_eq_true, List.all_eq_true] at h
  simpa using h.2 resource (mem_normalize.2 hmem)

theorem isWellFormed_of_isNarrower {child parent : List String} (h : isNarrower child parent)
    (hp : isWellFormed parent) : isWellFormed child := by
  have hsubset := isNarrower_subset h
  simp only [isNarrower, isWellFormed, Bool.and_eq_true, List.all_eq_true, Bool.not_eq_true',
    List.isEmpty_eq_false_iff_exists_mem, mem_normalize] at *
  exact ⟨h.1.1, fun resource hmem => hp.2 resource (hsubset resource hmem)⟩

end Scope

structure Token.Filled (k : Token) : Prop where
  id : k.id ≠ ""
  issuer : k.issuer ≠ ""
  subject : k.subject ≠ ""

namespace Table

structure Supports (t : Table) (k : Token) : Prop where
  filled : k.Filled
  scope : Scope.isWellFormed k.scope
  distinct : k.scope.Nodup
  window : k.window.isWellFormed
  narrower : ∀ p, k.parent = some p → ∃ l, t.get? p = some l ∧
    Scope.isNarrower k.scope l.scope ∧ l.window.isNarrower k.window

inductive Sound : Table → Prop
  | empty : Sound .empty
  | add {t k} : Sound t → ¬t.has k.id → t.Supports k → Sound (t.add k)

inductive Reached : Table → Prop
  | empty : Reached .empty
  | read {text t} : Snapshot.read text = .ok t → Reached t
  | mint {t t' clock ids r k} : Reached t → (t.mint clock ids r).1 = .ok (k, t') → Reached t'
  | delegate {t t' clock ids parent r k} : Reached t →
      (t.delegate clock ids parent r).1 = .ok (.ok (k, t')) → Reached t'
  | revoke {t t' id changed} : Reached t → t.revoke id = .ok (changed, t') → Reached t'

variable {t t' : Table} {k l : Token} {id : String}

theorem get?_some (h : t.get? id = some k) : k ∈ t.tokens ∧ k.id = id :=
  ⟨List.mem_of_find?_eq_some h, by simpa using List.find?_some h⟩

theorem get?_add : (t.add k).get? id = if k.id = id then some k else t.get? id := by
  by_cases h : k.id = id <;> simp [get?, add, h]

theorem toList_add (t : Table) (k : Token) : (t.add k).toList = t.toList ++ [k] := by
  simp [toList, add]

theorem has_of_get? (h : t.get? id = some k) : t.has id := by
  rw [has, h]
  rfl

theorem get?_add_of_get? (fresh : ¬t.has k.id) (h : t.get? id = some l) :
    (t.add k).get? id = some l := by
  have hne : k.id ≠ id := fun heq => fresh (heq ▸ has_of_get? h)
  rw [get?_add, if_neg hne, h]

theorem Supports.congr {k' : Token} (h : t.Supports k) (hk : k'.terms = k.terms)
    (hstored : ∀ p l, t.get? p = some l → ∃ l', t'.get? p = some l' ∧ l'.terms = l.terms) :
    t'.Supports k' := by
  obtain ⟨hid, hissuer, hsubject, hscope, hwindow, hparent⟩ := Token.terms_eq_iff.1 hk
  refine ⟨⟨hid ▸ h.filled.id, hissuer ▸ h.filled.issuer, hsubject ▸ h.filled.subject⟩,
    hscope ▸ h.scope, hscope ▸ h.distinct, ?_, fun p hp => ?_⟩
  · rw [Window.isWellFormed_congr hwindow]
    exact h.window
  · obtain ⟨l, hl, hnarrow, hwithin⟩ := h.narrower p (hparent ▸ hp)
    obtain ⟨l', hl', hsame⟩ := hstored p l hl
    obtain ⟨-, -, -, hscope', hwindow', -⟩ := Token.terms_eq_iff.1 hsame
    refine ⟨l', hl', ?_, ?_⟩
    · rw [hscope, hscope']
      exact hnarrow
    · rw [Window.isNarrower_congr hwindow' hwindow]
      exact hwithin

theorem Sound.supports (h : Sound t) (hk : t.get? id = some k) : t.Supports k := by
  induction h with
  | empty => cases hk
  | @add t l _ fresh hl ih =>
      -- the new token has a new ID, so it hides none of the older ones
      have hgrow (p : String) (m : Token) (hm : t.get? p = some m) :
          ∃ m', (t.add l).get? p = some m' ∧ m'.terms = m.terms :=
        ⟨m, get?_add_of_get? fresh hm, rfl⟩
      rw [get?_add] at hk
      split at hk
      · cases hk
        exact hl.congr rfl hgrow
      · exact (ih hk).congr rfl hgrow

theorem Sound.get?_of_mem (h : Sound t) (hk : k ∈ t.tokens) : t.get? k.id = some k := by
  induction h with
  | empty => cases hk
  | @add t l _ fresh _ ih =>
      rcases List.mem_cons.1 hk with rfl | hk
      · rw [get?_add, if_pos rfl]
      · exact get?_add_of_get? fresh (ih hk)

theorem checkNewId_ok : t.checkNewId id = .ok () ↔ ¬Text.allBlank id ∧ ¬t.has id := by
  unfold checkNewId
  split
  · simp_all
  · split <;> simp_all

theorem checkParties_ok {issuer subject : String} :
    checkParties id issuer subject = .ok () ↔ ¬Text.allBlank issuer ∧ ¬Text.allBlank subject := by
  unfold checkParties
  cases Text.allBlank issuer <;> cases Text.allBlank subject <;> simp

theorem ne_empty_of_not_blank {s : String} (h : ¬Text.allBlank s) : s ≠ "" := by
  rintro rfl
  exact h rfl

theorem filled_of_checks {issuer subject : String} (hid : t.checkNewId id = .ok ())
    (hparties : checkParties id issuer subject = .ok ()) :
    ¬t.has id ∧ id ≠ "" ∧ issuer ≠ "" ∧ subject ≠ "" := by
  obtain ⟨hname, fresh⟩ := checkNewId_ok.1 hid
  obtain ⟨hissuer, hsubject⟩ := checkParties_ok.1 hparties
  exact ⟨fresh, ne_empty_of_not_blank hname, ne_empty_of_not_blank hissuer,
    ne_empty_of_not_blank hsubject⟩

theorem mintAs_ok {clock : Clock} {r : MintRequest} (h : t.mintAs clock id r = .ok (k, t')) :
    t' = t.add k ∧ ¬t.has k.id ∧ t.Supports k := by
  simp only [mintAs, bind_ok, guard_ok, pure_ok, Prod.mk.injEq, Bool.not_eq_true',
    Bool.not_eq_false] at h
  obtain ⟨_, hid, _, hparties, hscope, window, -, hwindow, rfl, rfl⟩ := h
  obtain ⟨fresh, hname, hissuer, hsubject⟩ := filled_of_checks hid hparties
  exact ⟨rfl, fresh, ⟨hname, hissuer, hsubject⟩, hscope, nodup_eraseDups _, hwindow, by simp⟩

theorem grant_ok {clock : Clock} {parent : String} {r : DelegationRequest} {scope : List String}
    {window : Window} (h : t.grant clock parent r = .ok (.ok (l, scope, window))) :
    t.get? parent = some l ∧ scope = Scope.normalize r.scope ∧ Scope.isNarrower scope l.scope ∧
      window.isWellFormed ∧ l.window.isNarrower window := by
  unfold grant at h
  split at h
  · cases h
  · rename_i m hm
    split at h
    · cases h
    · rename_i now hnow
      split at h
      · cases h
      · dsimp only at h
        split at h
        · cases h
        · rename_i hscope
          obtain ⟨w, -, h⟩ := bind_ok.1 h
          split at h
          · cases h
          · rename_i hwindow
            cases h
            simp only [Bool.not_eq_true', Bool.not_eq_false, Bool.and_eq_true] at hscope hwindow
            exact ⟨hm, rfl, hscope, hwindow⟩
      · cases h

theorem delegateAs_ok {scope : List String} {window : Window} {r : DelegationRequest}
    (h : t.delegateAs id l scope window r = .ok (k, t')) :
    t' = t.add k ∧ ¬t.has k.id ∧ k.Filled ∧ k.scope = scope ∧ k.window = window ∧
      k.parent = some l.id := by
  simp only [delegateAs, bind_ok, pure_ok, Prod.mk.injEq] at h
  obtain ⟨_, hid, _, hparties, rfl, rfl⟩ := h
  obtain ⟨fresh, hname, hissuer, hsubject⟩ := filled_of_checks hid hparties
  exact ⟨rfl, fresh, ⟨hname, hissuer, hsubject⟩, rfl, rfl, rfl⟩

theorem delegate_ok {clock : Clock} {ids : IdSource} {parent : String} {r : DelegationRequest}
    (h : (t.delegate clock ids parent r).1 = .ok (.ok (k, t'))) :
    ∃ l id scope window, t.grant clock parent r = .ok (.ok (l, scope, window)) ∧
      t.delegateAs id l scope window r = .ok (k, t') := by
  unfold delegate at h
  split at h
  · cases h
  · cases h
  · rename_i l scope window hgrant
    refine ⟨l, (ids.take r.id).1, scope, window, hgrant, ?_⟩
    cases hstep : t.delegateAs (ids.take r.id).1 l scope window r with
    | error f => simp [hstep, Except.map] at h
    | ok added => simpa [hstep, Except.map] using h

theorem Sound.delegate {clock : Clock} {ids : IdSource} {parent : String} {r : DelegationRequest}
    (ht : Sound t) (h : (t.delegate clock ids parent r).1 = .ok (.ok (k, t'))) : Sound t' := by
  obtain ⟨l, id, scope, window, hgrant, hstep⟩ := delegate_ok h
  obtain ⟨hl, hscope, hnarrow, hwindow, hwithin⟩ := grant_ok hgrant
  obtain ⟨rfl, fresh, hfilled, hs, hw, hp⟩ := delegateAs_ok hstep
  refine .add ht fresh ⟨hfilled, ?_, ?_, hw ▸ hwindow, ?_⟩
  · rw [hs]
    exact Scope.isWellFormed_of_isNarrower hnarrow (ht.supports hl).scope
  · rw [hs, hscope]
    exact nodup_eraseDups _
  · intro p hparent
    obtain rfl : l.id = p := Option.some_inj.1 (hp.symm.trans hparent)
    refine ⟨l, ?_, hs ▸ hnarrow, hw ▸ hwithin⟩
    rw [(get?_some hl).2, hl]

theorem get?_map {f : Token → Token} (hf : ∀ k, (f k).id = k.id) :
    (⟨t.tokens.map f⟩ : Table).get? id = (t.get? id).map f := by
  simp only [get?, List.find?_map, Function.comp_def, hf]

theorem Sound.map (h : Sound t) {f : Token → Token} (hf : ∀ k, (f k).terms = k.terms) :
    Sound ⟨t.tokens.map f⟩ := by
  have hid (k : Token) : (f k).id = k.id := (Token.terms_eq_iff.1 (hf k)).1
  induction h with
  | empty => exact .empty
  | @add t k _ fresh hk ih =>
      refine .add ih ?_ (hk.congr (hf k) fun p l hl => ⟨f l, ?_, hf l⟩)
      · rw [has, get?_map hid, Option.isSome_map, hid]
        exact fresh
      · rw [get?_map hid, hl]
        rfl

theorem Sound.of_map {f : Token → Token} (hf : ∀ k, (f k).terms = k.terms) {ks : List Token}
    (h : Sound ⟨ks.map f⟩) : Sound ⟨ks⟩ := by
  have hid (k : Token) : (f k).id = k.id := (Token.terms_eq_iff.1 (hf k)).1
  induction ks with
  | nil => exact .empty
  | cons k ks ih =>
      generalize hu : (⟨(k :: ks).map f⟩ : Table) = u at h
      cases h with
      | empty => cases hu
      | @add u l ht fresh hs =>
          obtain ⟨hl, hks⟩ := List.cons.inj (congrArg Table.tokens hu)
          obtain rfl : u = ⟨ks.map f⟩ := congrArg Table.mk hks.symm
          subst hl
          refine .add (ih ht) ?_ (hs.congr (hf k).symm fun p l hl => ?_)
          · rwa [has, get?_map hid, Option.isSome_map, hid] at fresh
          · rw [get?_map hid] at hl
            obtain ⟨m, hm, rfl⟩ := Option.map_eq_some_iff.1 hl
            exact ⟨m, hm, (hf m).symm⟩

theorem Sound.revoke {changed : Bool} (ht : Sound t) (h : t.revoke id = .ok (changed, t')) :
    Sound t' := by
  unfold Table.revoke at h
  split at h
  · cases h
  · split at h
    · cases h
      exact ht
    · cases h
      refine ht.map fun k => ?_
      split <;> rfl

end Table

namespace Snapshot

open Table (Sound Supports)

variable {t t' : Table} {k : Token} {ks : List Token} {v : Option Json}

theorem tokenShape_filled (h : tokenShape v = .ok k) : k.Filled := by
  simp only [tokenShape, bind_ok, pure_ok, Json.Shape.member_ok, Json.Shape.filled_ok] at h
  obtain ⟨ms, -, id, ⟨-, hid⟩, issuer, ⟨-, hissuer⟩, subject, ⟨-, hsubject⟩, h⟩ := h
  obtain ⟨scope, -, window, -, parent, -, revoked, -, -, -, rfl⟩ := h
  exact ⟨hid, hissuer, hsubject⟩

theorem tokensShape_filled (h : tokensShape v = .ok ks) : ∀ k ∈ ks, k.Filled := by
  simp only [tokensShape, bind_ok, pure_ok, Json.Shape.member_ok, Json.Shape.list_ok] at h
  obtain ⟨ms, -, -, -, tokens, ⟨vs, -, hall⟩, -, -, rfl⟩ := h
  induction hall with
  | nil => simp
  | cons hw _ ih => exact List.forall_mem_cons.2 ⟨tokenShape_filled hw, ih⟩

theorem check_ok (hk : k.Filled) : check t k = .ok () ↔ ¬t.has k.id ∧ t.Supports k := by
  simp only [check, guard_ok, Bool.not_eq_true', Bool.not_eq_false, Bool.and_eq_true, beq_iff_eq,
    Scope.normalize_eq_iff]
  refine and_congr_right fun fresh => ?_
  constructor
  · rintro ⟨⟨hscope, hdistinct⟩, hwindow, hparent⟩
    refine ⟨hk, hscope, hdistinct, hwindow, fun p hp => ?_⟩
    simp only [hp] at hparent
    split at hparent
    · cases hparent
    · rename_i l hl
      split at hparent
      · cases hparent
      · rename_i hnarrow
        exact ⟨l, hl, by simpa using hnarrow⟩
  · intro hs
    refine ⟨⟨hs.scope, hs.distinct⟩, hs.window, ?_⟩
    cases hp : k.parent with
    | none => rfl
    | some p =>
        obtain ⟨l, hl, hscope, hwindow⟩ := hs.narrower p hp
        simp [hl, hscope, hwindow, pure, Except.pure]

theorem build_sound (ht : Sound t) (hks : ∀ k ∈ ks, k.Filled) (h : build t ks = .ok t') :
    Sound t' := by
  induction ks generalizing t with
  | nil =>
      cases h
      exact ht
  | cons k ks ih =>
      obtain ⟨hk, hks⟩ := List.forall_mem_cons.1 hks
      obtain ⟨_, hcheck, h⟩ := bind_ok.1 h
      obtain ⟨fresh, hs⟩ := (check_ok hk).1 hcheck
      exact ih (ht.add fresh hs) hks h

theorem read_ok {text : String} :
    read text = .ok t ↔
      ∃ v ks, Json.parse? text = some v ∧ tokensShape (some v) = .ok ks ∧ build .empty ks = .ok t := by
  unfold read
  cases hv : (Json.parse? text : Option Json) with
  | none => simp
  | some v => cases hks : tokensShape (some v) <;> simp [hks]

end Snapshot

theorem Table.Reached.sound {t : Table} (h : t.Reached) : t.Sound := by
  induction h with
  | empty => exact .empty
  | read h =>
      obtain ⟨v, ks, -, hks, hbuild⟩ := Snapshot.read_ok.1 h
      exact Snapshot.build_sound .empty (Snapshot.tokensShape_filled hks) hbuild
  | mint _ h ih =>
      obtain ⟨rfl, fresh, hk⟩ := mintAs_ok h
      exact .add ih fresh hk
  | delegate _ h ih => exact ih.delegate h
  | revoke _ h ih => exact ih.revoke h

end ToolGate
