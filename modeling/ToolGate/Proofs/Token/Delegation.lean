import Mathlib.Data.Finset.Card
import ToolGate.Proofs.Token.History

namespace ToolGate

namespace Window

/-- The instant is at the end or behind it, or before the start. What is no number is neither. -/
def Excludes (w : Window) (instant : Number) : Prop :=
  (∃ e, w.expiresAt = some e ∧ e ≤ instant) ∨ instant < w.notBefore

inductive Oversteps (inner outer : Window) : Prop
  | start : ¬isBound inner.notBefore → Oversteps inner outer
  | last {e} : inner.expiresAt = some e → ¬isBound e → Oversteps inner outer
  | empty {e} : inner.expiresAt = some e → e ≤ inner.notBefore → Oversteps inner outer
  | openEnded : inner.expiresAt = none → Oversteps inner outer
  | early : inner.notBefore < outer.notBefore → Oversteps inner outer
  | late {e l} : inner.expiresAt = some e → outer.expiresAt = some l → l ≤ e → Oversteps inner outer

variable {w inner outer : Window} {instant : Number}

theorem status_ne_valid : w.status instant ≠ .valid ↔ w.Excludes instant := by
  rw [Excludes, ← status_eq_expired, status]
  by_cases hend : w.expiresAt.any (· ≤ instant)
  · simp [hend]
  · by_cases hearly : instant < w.notBefore <;> simp [hend, hearly]

theorem not_le_of_isBound {a b : Number} (ha : isBound a) (hb : isBound b) : ¬a ≤ b ↔ b < a :=
  Number.not_le (ne_nan_of_isBound ha) (ne_nan_of_isBound hb)

theorem not_oversteps (ho : outer.isWellFormed) (hi : inner.isWellFormed)
    (hn : outer.isNarrower inner) : ¬inner.Oversteps outer := by
  obtain ⟨-, houter⟩ := isBound_of_isWellFormed ho
  obtain ⟨hstart, hends⟩ := isWellFormed_iff.1 hi
  obtain ⟨hearly, e, he, hlate⟩ := isNarrower_iff.1 hn
  obtain ⟨hlast, hopen⟩ := hends e he
  intro h
  cases h with
  | start hnot => exact hnot hstart
  | last hd hnot =>
      cases he.symm.trans hd
      exact hnot hlast
  | empty hd hle =>
      cases he.symm.trans hd
      exact (not_le_of_isBound hlast hstart).2 hopen hle
  | openEnded hnone => cases he.symm.trans hnone
  | early hlt => exact hearly hlt
  | late hd hl hle =>
      cases he.symm.trans hd
      exact (not_le_of_isBound (houter _ hl) hlast).2 (hlate _ hl) hle

theorem narrower_of_not_oversteps (ho : outer.isWellFormed) (h : ¬inner.Oversteps outer) :
    inner.isWellFormed ∧ outer.isNarrower inner := by
  obtain ⟨-, houter⟩ := isBound_of_isWellFormed ho
  obtain ⟨e, he⟩ : ∃ e, inner.expiresAt = some e := by
    cases he : inner.expiresAt with
    | none => exact absurd (.openEnded he) h
    | some e => exact ⟨e, rfl⟩
  have hstart : isBound inner.notBefore := by_contra fun hnot => h (.start hnot)
  have hlast : isBound e := by_contra fun hnot => h (.last he hnot)
  have hopen : inner.notBefore < e :=
    (not_le_of_isBound hlast hstart).1 fun hle => h (.empty he hle)
  constructor
  · rw [isWellFormed_iff, he]
    exact ⟨hstart, fun _ hd => Option.some_inj.1 hd ▸ ⟨hlast, hopen⟩⟩
  · refine isNarrower_iff.2 ⟨fun hlt => h (.early hlt), e, he, fun l hl => ?_⟩
    exact (not_le_of_isBound (houter l hl) hlast).1 fun hle => h (.late he hl hle)

theorem oversteps_iff (ho : outer.isWellFormed) :
    inner.Oversteps outer ↔ ¬(inner.isWellFormed && outer.isNarrower inner) := by
  rw [Bool.and_eq_true]
  constructor
  · rintro h ⟨hi, hn⟩
    exact not_oversteps ho hi hn h
  · exact fun h => by_contra fun hnot => h (narrower_of_not_oversteps ho hnot)

end Window

namespace Scope

def Oversteps (inner outer : List String) : Prop :=
  inner.toFinset = ∅ ∨ ¬inner.toFinset ⊆ outer.toFinset ∨ inner.toFinset = outer.toFinset

theorem toFinset_normalize (scope : List String) :
    (normalize scope).toFinset = scope.toFinset := by
  ext resource
  rw [List.mem_toFinset, List.mem_toFinset, mem_normalize]

theorem length_normalize (scope : List String) :
    (normalize scope).length = scope.toFinset.card := by
  have hdistinct : (normalize scope).Nodup := nodup_eraseDups scope
  rw [← toFinset_normalize, List.toFinset_card_of_nodup hdistinct]

theorem isNarrower_iff {child parent : List String} :
    isNarrower child parent ↔ child.toFinset ≠ ∅ ∧ child.toFinset ⊂ parent.toFinset := by
  have hempty : (normalize child).isEmpty ↔ child.toFinset = ∅ := by
    rw [List.isEmpty_iff_length_eq_zero, length_normalize, Finset.card_eq_zero]
  have hsubset : (normalize child).all (parent.contains ·) ↔ child.toFinset ⊆ parent.toFinset := by
    simp [Finset.subset_iff, mem_normalize]
  simp only [isNarrower, Bool.and_eq_true, Bool.not_eq_true', ← Bool.not_eq_true, hempty, hsubset,
    length_normalize, decide_eq_true_eq, ne_eq, and_assoc]
  refine and_congr_right fun _ => ?_
  constructor
  · rintro ⟨hless, hsub⟩
    exact ⟨hsub, fun hback => absurd (Finset.card_le_card hback) (Nat.not_le.2 hless)⟩
  · exact fun h => ⟨Finset.card_lt_card h, h.subset⟩

theorem oversteps_iff {inner outer : List String} :
    Oversteps inner outer ↔ ¬isNarrower (normalize inner) outer := by
  rw [isNarrower_iff, toFinset_normalize, Finset.ssubset_iff_subset_ne, Oversteps]
  tauto

end Scope

namespace Table

variable {t : Table} {l : Token} {parent id issuer subject : String} {clock : Clock}
  {ids : IdSource} {r : DelegationRequest} {now : Number} {scope : List String} {window : Window}

def Broken (t : Table) (l : Token) : Prop :=
  ∃ a, t.Above l a ∧ a.revoked = true

def Misnamed (t : Table) (id issuer subject : String) : Prop :=
  Text.allBlank id ∨ t.has id ∨ Text.allBlank issuer ∨ Text.allBlank subject

theorem Sound.validate_of_not_broken (ht : t.Sound) (hl : t.get? parent = some l)
    (hbroken : ¬t.Broken l) (now : Number) :
    t.validate parent now = (l.window.status now).tokenStatus := by
  have hrevoked := mt (ht.validate_eq_revoked hl now).1 hbroken
  rw [ht.validate_eq hl] at hrevoked ⊢
  split at hrevoked
  · exact absurd rfl hrevoked
  · rename_i hnone
    exact if_neg hnone

open Classical in
theorem Sound.grant_eq (ht : t.Sound) (hl : t.get? parent = some l) (hnow : clock 0 = .ok now)
    (r : DelegationRequest) :
    t.grant clock parent r =
      if t.Broken l then .ok (.error .parentRevoked)
      else if l.window.Excludes now then .ok (.error (.parentExpired now))
      else if Scope.Oversteps r.scope l.scope then .ok (.error .scopeNotNarrowed)
      else (r.window.resolve (clock 1)).map fun window =>
        if window.Oversteps l.window then .error .lifetimeNotNarrowed
        else .ok (l, Scope.normalize r.scope, window) := by
  simp only [grant, hl, hnow]
  by_cases hbroken : t.Broken l
  · have hvalidate : t.validate parent now = .revoked := (ht.validate_eq_revoked hl now).2 hbroken
    rw [if_pos hbroken, hvalidate]
    rfl
  rw [if_neg hbroken, ht.validate_of_not_broken hl hbroken]
  by_cases hout : l.window.Excludes now
  · have hstatus := Window.status_ne_valid.2 hout
    rw [if_pos hout]
    cases hs : l.window.status now with
    | valid => exact absurd hs hstatus
    | expired | notYetValid => rfl
  have hvalid : l.window.status now = .valid := by_contra fun h => hout (Window.status_ne_valid.1 h)
  rw [if_neg hout, hvalid]
  by_cases hscope : Scope.Oversteps r.scope l.scope
  · have hcheck := Scope.oversteps_iff.1 hscope
    simp only [WindowStatus.tokenStatus, hcheck, if_pos hscope]
    rfl
  have hcheck := by_contra fun h => hscope (Scope.oversteps_iff.2 h)
  rw [if_neg hscope]
  simp only [WindowStatus.tokenStatus, hcheck]
  -- a window without a start has the clock read once more
  cases r.window.resolve (clock 1) with
  | error f => rfl
  | ok window =>
      have hwindow : window.Oversteps l.window ↔ _ := Window.oversteps_iff (ht.supports hl).window
      by_cases hover : window.Oversteps l.window
      · have hfits := hwindow.1 hover
        simp [hfits, hover, bind, Except.bind, Except.map, pure, Except.pure]
      · have hfits := by_contra fun h => hover (hwindow.2 h)
        simp [hfits, hover, bind, Except.bind, Except.map, pure, Except.pure]

inductive Objection (t : Table) (l : Token) (clock : Clock) (now : Number) (r : DelegationRequest) :
    Refusal → Prop
  | broken : t.Broken l → Objection t l clock now r .parentRevoked
  | excluded : ¬t.Broken l → l.window.Excludes now → Objection t l clock now r (.parentExpired now)
  | scope : ¬t.Broken l → ¬l.window.Excludes now → Scope.Oversteps r.scope l.scope →
      Objection t l clock now r .scopeNotNarrowed
  | lifetime {w} : ¬t.Broken l → ¬l.window.Excludes now → ¬Scope.Oversteps r.scope l.scope →
      r.window.resolve (clock 1) = .ok w → w.Oversteps l.window →
      Objection t l clock now r .lifetimeNotNarrowed

theorem Sound.grant_refused (ht : t.Sound) (hl : t.get? parent = some l) (hnow : clock 0 = .ok now)
    {why : Refusal} :
    t.grant clock parent r = .ok (.error why) ↔ t.Objection l clock now r why := by
  rw [ht.grant_eq hl hnow r]
  constructor
  · intro h
    split_ifs at h with hbroken hout hscope
    · cases h
      exact .broken hbroken
    · cases h
      exact .excluded hbroken hout
    · cases h
      exact .scope hbroken hout hscope
    · obtain ⟨w, hw, hanswer⟩ := map_ok.1 h
      split_ifs at hanswer with hover
      · cases hanswer
        exact .lifetime hbroken hout hscope hw hover
  · intro h
    cases h with
    | broken hbroken => rw [if_pos hbroken]
    | excluded hbroken hout => rw [if_neg hbroken, if_pos hout]
    | scope hbroken hout hscope => rw [if_neg hbroken, if_neg hout, if_pos hscope]
    | lifetime hbroken hout hscope hw hover =>
        rw [if_neg hbroken, if_neg hout, if_neg hscope]
        exact map_ok.2 ⟨_, hw, if_pos hover⟩

theorem Sound.grant_granted (ht : t.Sound) (hl : t.get? parent = some l) (hnow : clock 0 = .ok now)
    (hbroken : ¬t.Broken l) (hout : ¬l.window.Excludes now)
    (hscope : ¬Scope.Oversteps r.scope l.scope) (hwindow : r.window.resolve (clock 1) = .ok window)
    (hover : ¬window.Oversteps l.window) :
    t.grant clock parent r = .ok (.ok (l, Scope.normalize r.scope, window)) := by
  rw [ht.grant_eq hl hnow r, if_neg hbroken, if_neg hout, if_neg hscope, hwindow]
  exact congrArg Except.ok (if_neg hover)

theorem grant_unknown :
    t.grant clock parent r = .ok (.error .unknownParent) ↔ t.get? parent = none := by
  constructor
  · intro h
    cases hl : t.get? parent with
    | none => rfl
    | some l =>
        simp only [grant, hl] at h
        split at h
        · cases h
        · split at h
          · cases h
          · split at h
            · cases h
            · obtain ⟨w, -, h⟩ := bind_ok.1 h
              split at h <;> cases h
          · cases h
  · intro hnone
    simp only [grant, hnone]
    rfl

theorem delegate_refused {why : Refusal} :
    (t.delegate clock ids parent r).1 = .ok (.error why) ↔
      t.grant clock parent r = .ok (.error why) := by
  unfold delegate
  cases hgrant : t.grant clock parent r with
  | error f => simp
  | ok answer =>
      cases answer with
      | error refusal => simp
      | ok granted =>
          cases hadd : t.delegateAs (ids.take r.id).1 granted.1 granted.2.1 granted.2.2 r <;>
            simp [hadd, Except.map]

theorem delegate_granted (h : t.grant clock parent r = .ok (.ok (l, scope, window))) :
    (t.delegate clock ids parent r).1 =
      (t.delegateAs (ids.take r.id).1 l scope window r).map .ok := by
  simp only [delegate, h]

theorem not_misnamed :
    ¬t.Misnamed id issuer subject ↔
      t.checkNewId id = .ok () ∧ checkParties id issuer subject = .ok () := by
  simp only [Misnamed, checkNewId_ok, checkParties_ok, not_or, and_assoc]

theorem delegateAs_named (h : ¬t.Misnamed id (r.issuer.getD l.issuer) (r.subject.getD l.subject)) :
    let k : Token :=
      ⟨id, r.issuer.getD l.issuer, r.subject.getD l.subject, scope, window, some l.id, false⟩
    t.delegateAs id l scope window r = .ok (k, t.add k) := by
  obtain ⟨hid, hparties⟩ := not_misnamed.1 h
  exact bind_ok.2 ⟨_, hid, bind_ok.2 ⟨_, hparties, rfl⟩⟩

theorem delegateAs_misnamed
    (h : t.Misnamed id (r.issuer.getD l.issuer) (r.subject.getD l.subject)) :
    ∃ f, t.delegateAs id l scope window r = .error f := by
  cases hadd : t.delegateAs id l scope window r with
  | error f => exact ⟨f, rfl⟩
  | ok added =>
      obtain ⟨_, hid, hrest⟩ := bind_ok.1 hadd
      obtain ⟨_, hparties, -⟩ := bind_ok.1 hrest
      exact absurd h (not_misnamed.2 ⟨hid, hparties⟩)

structure Decides (t : Table) (clock : Clock) (parent : String) (l : Token) (now : Number)
    (r : DelegationRequest) (id : String)
    (result : Except TokenFault (Except Refusal (Token × Table))) : Prop where
  revoked : result = .ok (.error .parentRevoked) ↔ t.Broken l
  expired : ¬t.Broken l → (result = .ok (.error (.parentExpired now)) ↔ l.window.Excludes now)
  scope : ¬t.Broken l → ¬l.window.Excludes now →
    (result = .ok (.error .scopeNotNarrowed) ↔ Scope.Oversteps r.scope l.scope)
  lifetime : ∀ window, ¬t.Broken l → ¬l.window.Excludes now → ¬Scope.Oversteps r.scope l.scope →
    r.window.resolve (clock 1) = .ok window →
    (result = .ok (.error .lifetimeNotNarrowed) ↔ window.Oversteps l.window)
  failed : ∀ window, ¬t.Broken l → ¬l.window.Excludes now → ¬Scope.Oversteps r.scope l.scope →
    r.window.resolve (clock 1) = .ok window → ¬window.Oversteps l.window →
    ((∃ f, result = .error f) ↔ t.Misnamed id (r.issuer.getD l.issuer) (r.subject.getD l.subject))
  added : ∀ window, ¬t.Broken l → ¬l.window.Excludes now → ¬Scope.Oversteps r.scope l.scope →
    r.window.resolve (clock 1) = .ok window → ¬window.Oversteps l.window →
    ¬t.Misnamed id (r.issuer.getD l.issuer) (r.subject.getD l.subject) →
    ∃ u k, result = .ok (.ok (k, u)) ∧ u.toList = t.toList ++ [k] ∧
      k = ⟨id, r.issuer.getD l.issuer, r.subject.getD l.subject, Scope.normalize r.scope, window,
        some parent, false⟩

theorem Sound.decides (ht : t.Sound) (hl : t.get? parent = some l) (hnow : clock 0 = .ok now)
    (ids : IdSource) (r : DelegationRequest) :
    t.Decides clock parent l now r (ids.take r.id).1 (t.delegate clock ids parent r).1 := by
  have hrefused (why : Refusal) :
      (t.delegate clock ids parent r).1 = .ok (.error why) ↔ t.Objection l clock now r why :=
    delegate_refused.trans (ht.grant_refused hl hnow)
  constructor
  case revoked => exact (hrefused _).trans ⟨fun h => by cases h; assumption, .broken⟩
  case expired =>
    intro hbroken
    exact (hrefused _).trans ⟨fun h => by cases h; assumption, .excluded hbroken⟩
  case scope =>
    intro hbroken hout
    exact (hrefused _).trans ⟨fun h => by cases h; assumption, .scope hbroken hout⟩
  case lifetime =>
    intro window hbroken hout hscope hwindow
    refine (hrefused _).trans ⟨fun h => ?_, .lifetime hbroken hout hscope hwindow⟩
    cases h with
    | lifetime _ _ _ hother hover => exact Except.ok.inj (hother.symm.trans hwindow) ▸ hover
  case failed =>
    intro window hbroken hout hscope hwindow hover
    rw [delegate_granted (ht.grant_granted hl hnow hbroken hout hscope hwindow hover)]
    constructor
    · rintro ⟨f, hf⟩
      by_contra hnames
      rw [delegateAs_named hnames] at hf
      cases hf
    · intro hnames
      obtain ⟨f, hf⟩ := delegateAs_misnamed hnames
      exact ⟨f, congrArg (Except.map Except.ok) hf⟩
  case added =>
    intro window hbroken hout hscope hwindow hover hnames
    rw [delegate_granted (ht.grant_granted hl hnow hbroken hout hscope hwindow hover),
      delegateAs_named hnames]
    exact ⟨_, _, rfl, toList_add _ _, by rw [(get?_some hl).2]⟩

theorem delegate_decides (ht : t.Reached) (clock : Clock) (ids : IdSource) (parent : String)
    (r : DelegationRequest) :
    ((t.delegate clock ids parent r).1 = .ok (.error .unknownParent) ↔ t.get? parent = none) ∧
      ∀ l now, t.get? parent = some l → clock 0 = .ok now →
        t.Decides clock parent l now r (ids.take r.id).1 (t.delegate clock ids parent r).1 :=
  ⟨delegate_refused.trans grant_unknown, fun _ _ hl hnow => ht.sound.decides hl hnow ids r⟩

namespace Line

def request : DelegationRequest := ⟨some "reader", ["mail", "mail"], ⟨none, some 9⟩, none, none⟩

end Line

open Line in
theorem delegate_decides_of_team :
    (cut.delegate Line.clock Line.ids "agent" request).1 = .ok (.error .parentRevoked) ∧
      ∃ u k, (grown.delegate Line.clock Line.ids "team" request).1 = .ok (.ok (k, u)) ∧
        u.toList = [root, team, agent, k] ∧
        k = ⟨"reader", "host", "team", ["mail"], ⟨4, some 9⟩, some "team", false⟩ := by
  have hagent : cut.get? "agent" = some agent := by decide +kernel
  have hteam : grown.get? "team" = some team := by decide +kernel
  have hwindow : request.window.resolve (Line.clock 1) = .ok ⟨4, some 9⟩ := by decide +kernel
  obtain ⟨-, hcut⟩ := delegate_decides cut_reached Line.clock Line.ids "agent" request
  obtain ⟨-, hgrown⟩ := delegate_decides grown_reached Line.clock Line.ids "team" request
  constructor
  · refine (hcut agent 4 hagent rfl).revoked.2 ?_
    have hparent : cut.Parent agent { team with revoked := true } :=
      ⟨"team", rfl, by decide +kernel⟩
    exact ⟨_, .single hparent, rfl⟩
  have hdecides := hgrown team 4 hteam rfl
  have hbroken : ¬grown.Broken team := mt hdecides.revoked.2 (by decide +kernel)
  have hout : ¬team.window.Excludes 4 := mt (hdecides.expired hbroken).2 (by decide +kernel)
  have hscope : ¬Scope.Oversteps request.scope team.scope :=
    mt (hdecides.scope hbroken hout).2 (by decide +kernel)
  have hover := mt (hdecides.lifetime _ hbroken hout hscope hwindow).2 (by decide +kernel)
  have hnames : ¬grown.Misnamed "reader" "host" "team" := by
    refine mt (hdecides.failed _ hbroken hout hscope hwindow hover).2 ?_
    rintro ⟨f, hf⟩
    have hok : (grown.delegate Line.clock Line.ids "team" request).1.isOk := by decide +kernel
    rw [hf] at hok
    cases hok
  have hnormalize : Scope.normalize request.scope = ["mail"] := by decide +kernel
  have hadded := hdecides.added _ hbroken hout hscope hwindow hover hnames
  rw [hnormalize] at hadded
  exact hadded

end Table

end ToolGate
