import ToolGate.Proofs.Token.Subtree
import ToolGate.Token.Store

namespace ToolGate

namespace Table

variable {t u : Table} {k l a : Token} {id : String}

theorem eq_of_revoke_idle (h : t.revoke id = .ok (false, u)) : u = t := by
  unfold revoke at h
  split at h
  · cases h
  · split at h <;> cases h
    rfl

theorem validate_add (h : k.id ≠ id) (instant : Number) :
    (t.add k).validate id instant = t.validate id instant := by
  simp only [validate, add, chain, if_neg h]

theorem Sound.above_add (ht : t.Sound) (fresh : ¬t.has k.id) (hl : t.get? id = some l) :
    (t.add k).Above l a ↔ t.Above l a := by
  constructor
  · intro h
    induction h with
    | refl => exact .refl
    | @tail b c _ hstep ih =>
        obtain ⟨p, hp, hc⟩ := hstep
        obtain ⟨i, hi⟩ := Above.stored ih hl
        obtain ⟨m, hm, -⟩ := (ht.supports hi).narrower p hp
        obtain rfl : m = c := Option.some_inj.1 ((get?_add_of_get? fresh hm).symm.trans hc)
        exact ih.tail ⟨p, hp, hm⟩
  · intro h
    induction h with
    | refl => exact .refl
    | tail _ hstep ih =>
        obtain ⟨p, hp, hc⟩ := hstep
        exact ih.tail ⟨p, hp, get?_add_of_get? fresh hc⟩

/-- One token came behind the others. Those are as they were, with the lines above them, and so is the
standing of every other name. -/
structure Gains (t : Table) (k : Token) (u : Table) : Prop where
  fresh : t.get? k.id = none
  appended : u.toList = t.toList ++ [k]
  lines : ∀ id l, t.get? id = some l → u.get? id = some l ∧ ∀ a, u.Above l a ↔ t.Above l a
  standing : ∀ id, id ≠ k.id → ∀ instant, u.validate id instant = t.validate id instant

theorem Sound.gains (ht : t.Sound) (fresh : ¬t.has k.id) : t.Gains k (t.add k) where
  fresh := by simpa [has] using fresh
  appended := toList_add t k
  lines := fun _ _ hl => ⟨get?_add_of_get? fresh hl, fun _ => ht.above_add fresh hl⟩
  standing := fun _ h => validate_add h.symm

end Table

namespace TokenStore

variable {α β : Type} {s : TokenStore} {k : Token} {parent : String}

def Reads (s : TokenStore) (x : Op α) (y : Except TokenFault α) : Prop :=
  ∃ u : TokenStore, u.table = s.table ∧ u.names = s.names ∧
    x.run s = match y with
      | .ok a => .ok a u
      | .error f => .error (.token f) u

namespace Reads

theorem pure (a : α) : s.Reads (pure a) (.ok a) := ⟨s, rfl, rfl, rfl⟩

theorem get {f : TokenStore → Op α} {y : Except TokenFault α} (h : s.Reads (f s) y) :
    s.Reads (get >>= f) y := h

theorem bind {x : Op β} {y : Except TokenFault β} {f : β → Op α} {g : β → Except TokenFault α}
    (hx : s.Reads x y) (h : ∀ a (u : TokenStore), u.table = s.table → u.Reads (f a) (g a)) :
    s.Reads (x >>= f) (y >>= g) := by
  obtain ⟨u, hu, hnames, hrun⟩ := hx
  cases y with
  | error e =>
      refine ⟨u, hu, hnames, ?_⟩
      rw [EStateM.run_bind, hrun]
      rfl
  | ok a =>
      obtain ⟨v, hv, hnames', hrest⟩ := h a u hu
      refine ⟨v, hv.trans hu, hnames'.trans hnames, ?_⟩
      rw [EStateM.run_bind, hrun]
      exact hrest

theorem ite {c : Prop} [Decidable c] {x x' : Op α} {y y' : Except TokenFault α} (hx : s.Reads x y)
    (hx' : s.Reads x' y') : s.Reads (if c then x else x') (if c then y else y') := by
  split <;> assumption

theorem now_error {e : ClockFault} (h : s.readings 0 = .error e) (f : Number → Op α) :
    s.Reads (now >>= f) (.error (.clock e)) := by
  refine ⟨s.passed, rfl, rfl, ?_⟩
  simp only [TokenStore.now, EStateM.run_bind, EStateM.run_get, EStateM.run_set, h]
  rfl

theorem now_ok {instant : Number} (h : s.readings 0 = .ok instant) {f : Number → Op α}
    {y : Except TokenFault α} (hf : s.passed.Reads (f instant) y) : s.Reads (now >>= f) y := by
  simp only [Reads, TokenStore.now, EStateM.run_bind, EStateM.run_get, EStateM.run_set, h]
  exact hf

theorem resolve (w : WindowRequest) : s.Reads (resolve w) (w.resolve (s.readings 0)) := by
  obtain ⟨start, last⟩ := w
  cases start with
  | some start => exact .pure _
  | none =>
      unfold TokenStore.resolve WindowRequest.resolve
      cases h : s.readings 0 with
      | error e => exact .now_error h _
      | ok start => exact .now_ok h (.pure _)

theorem grant (parent : String) (r : DelegationRequest) :
    s.Reads (grant parent r) (s.table.grant s.readings parent r) := by
  unfold TokenStore.grant Table.grant
  refine .get ?_
  cases s.table.get? parent with
  | none => exact .pure _
  | some k =>
      -- the first reading is for the standing of the parent, so a start takes the second one
      cases h : s.readings 0 with
      | error e => exact .now_error h _
      | ok instant =>
          refine .now_ok h ?_
          dsimp only
          cases s.table.validate parent instant with
          | valid =>
              dsimp only
              refine .ite (.pure _) (.bind (.resolve r.window) fun window u _ => ?_)
              exact .ite (.pure _) (.pure _)
          | _ => exact .pure _

end Reads

def outcome (x : Op α) (s : TokenStore) : Except Fault α × Table :=
  match x.run s with
  | .ok a u => (.ok a, u.table)
  | .error e u => (.error e, u.table)

def settled (t : Table) : Except TokenFault (α × Table) → Except Fault α × Table
  | .ok (a, u) => (.ok a, u)
  | .error f => (.error (.token f), t)

theorem outcome_map (x : Op α) (f : α → β) :
    outcome (do let a ← x; return f a) s = ((outcome x s).1.map f, (outcome x s).2) := by
  simp only [outcome, EStateM.run_bind]
  cases x.run s <;> rfl

section Settled

variable {t : Table} {f : β → Op α} {g : β → Except TokenFault (α × Table)}

theorem outcome_lift (ht : s.table = t) {y : Except TokenFault β}
    (h : ∀ b, y = .ok b → outcome (f b) s = settled t (g b)) :
    outcome (lift y >>= f) s = settled t (y >>= g) := by
  cases y with
  | error e => exact congrArg (Prod.mk _) ht
  | ok b => exact h b rfl

theorem outcome_guard (ht : s.table = t) {c : Prop} [Decidable c] {e : TokenFault}
    {f : PUnit → Op α} {g : PUnit → Except TokenFault (α × Table)} {x : Op α}
    {y : Except TokenFault (α × Table)} (h : ¬c → outcome x s = settled t y) :
    outcome (if c then throw (.token e) >>= f else x) s =
      settled t (if c then throw e >>= g else y) := by
  by_cases hc : c
  · rw [if_pos hc, if_pos hc]
    exact congrArg (Prod.mk _) ht
  · rw [if_neg hc, if_neg hc]
    exact h hc

theorem outcome_reads (ht : s.table = t) {x : Op β} {y : Except TokenFault β} (hx : s.Reads x y)
    (h : ∀ b (u : TokenStore), u.table = t → outcome (f b) u = settled t (g b)) :
    outcome (x >>= f) s = settled t (y >>= g) := by
  obtain ⟨u, hu, -, hrun⟩ := hx
  rw [ht] at hu
  simp only [outcome, EStateM.run_bind, hrun]
  cases y with
  | error e => exact congrArg (Prod.mk _) hu
  | ok b => exact h b u hu

theorem outcome_put (ht : s.table = t) (fresh : ¬t.has k.id) :
    outcome (do put k; return k) s = settled t (.ok (k, t.add k)) := by
  subst ht
  have hput : s.table.put k = s.table.add k := if_neg fresh
  rw [← hput]
  rfl

-- the new name is checked first and the table is the same to the end, so that the token put there
-- takes no other's place
theorem mintAs_outcome (id : String) (r : MintRequest) :
    outcome (mintAs id r) s = settled s.table (s.table.mintAs s.readings id r) := by
  unfold mintAs Table.mintAs
  refine outcome_lift rfl fun _ hid => outcome_lift rfl fun _ _ => outcome_guard rfl fun _ => ?_
  refine outcome_reads rfl (.resolve r.window) fun window u hu => outcome_guard hu fun _ => ?_
  exact outcome_put hu (Table.checkNewId_ok.1 hid).2

theorem delegateAs_outcome (id : String) (l : Token) (scope : List String) (window : Window)
    (r : DelegationRequest) :
    outcome (delegateAs id l scope window r) s =
      settled s.table (s.table.delegateAs id l scope window r) := by
  unfold delegateAs Table.delegateAs
  refine outcome_lift rfl fun _ hid => outcome_lift rfl fun _ _ => ?_
  exact outcome_put rfl (Table.checkNewId_ok.1 hid).2

end Settled

section Names

variable {ids : IdSource} {wanted : Option String}

def Offers (s : TokenStore) (wanted : Option String) (ids : IdSource) : Prop :=
  wanted = none → s.names 0 = .ok ids.draw.1

theorem outcome_take (h : s.Offers wanted ids) (f : String → Op α) :
    ∃ u : TokenStore, u.table = s.table ∧ u.readings = s.readings ∧
      outcome (take wanted >>= f) s = outcome (f (ids.take wanted).1) u := by
  cases wanted with
  | some id => exact ⟨s, rfl, rfl, rfl⟩
  | none =>
      refine ⟨{ s with names := fun n => s.names (n + 1) }, rfl, rfl, ?_⟩
      simp only [outcome, take, draw, EStateM.run_bind, EStateM.run_get, EStateM.run_set, h rfl]
      rfl

theorem offers_or_fails (s : TokenStore) (wanted : Option String) :
    (∃ ids, s.Offers wanted ids) ∨ wanted = none ∧ ∃ message, s.names 0 = .error message := by
  cases wanted with
  | some id => exact .inl ⟨⟨fun _ => id, 0⟩, fun hw => by cases hw⟩
  | none =>
      cases h : s.names 0 with
      | ok id => exact .inl ⟨⟨fun _ => id, 0⟩, fun _ => h⟩
      | error message => exact .inr ⟨rfl, message, rfl⟩

theorem outcome_take_error {message : String} (h : s.names 0 = .error message)
    (f : String → Op α) : outcome (take none >>= f) s = (.error (.name message), s.table) := by
  simp only [outcome, take, draw, EStateM.run_bind, EStateM.run_get, EStateM.run_set, h]
  rfl

theorem mint_outcome {r : MintRequest} (h : s.Offers r.id ids) :
    outcome (mint r) s = settled s.table (s.table.mint s.readings ids r).1 := by
  obtain ⟨u, htable, hreadings, htake⟩ := outcome_take h fun id => mintAs id r
  have hmint := mintAs_outcome (s := u) (ids.take r.id).1 r
  rw [htable, hreadings] at hmint
  exact htake.trans hmint

def delegated (t : Table) : Except Refusal (Token × Table) → Except Refusal Token × Table
  | .error refusal => (.error refusal, t)
  | .ok (k, u) => (.ok k, u)

theorem delegate_of_grant {r : DelegationRequest} {l : Token} {scope : List String} {window : Window}
    (h : s.table.grant s.readings parent r = .ok (.ok (l, scope, window))) :
    ∃ u : TokenStore, u.table = s.table ∧ u.names = s.names ∧
      outcome (delegate parent r) s =
        outcome (do let id ← take r.id; let k ← delegateAs id l scope window r; return .ok k) u := by
  obtain ⟨u, htable, hnames, hrun⟩ := Reads.grant (s := s) parent r
  rw [h] at hrun
  refine ⟨u, htable, hnames, ?_⟩
  simp only [outcome, delegate, EStateM.run_bind, hrun]

theorem delegate_of_refusal {r : DelegationRequest} {refusal : Refusal}
    (h : s.table.grant s.readings parent r = .ok (.error refusal)) :
    outcome (delegate parent r) s = (.ok (.error refusal), s.table) := by
  obtain ⟨u, htable, -, hrun⟩ := Reads.grant (s := s) parent r
  rw [h] at hrun
  simp only [outcome, delegate, EStateM.run_bind, hrun, EStateM.run_pure, htable]

theorem delegate_of_fault {r : DelegationRequest} {f : TokenFault}
    (h : s.table.grant s.readings parent r = .error f) :
    outcome (delegate parent r) s = (.error (.token f), s.table) := by
  obtain ⟨u, htable, -, hrun⟩ := Reads.grant (s := s) parent r
  rw [h] at hrun
  simp only [outcome, delegate, EStateM.run_bind, hrun, htable]

theorem delegate_outcome {r : DelegationRequest} (h : s.Offers r.id ids) :
    outcome (delegate parent r) s =
      settled s.table ((s.table.delegate s.readings ids parent r).1.map (delegated s.table)) := by
  unfold Table.delegate
  cases hgrant : s.table.grant s.readings parent r with
  | error f => exact delegate_of_fault hgrant
  | ok granted =>
      cases granted with
      | error refusal => exact delegate_of_refusal hgrant
      | ok term =>
          obtain ⟨l, scope, window⟩ := term
          obtain ⟨u, htable, hnames, hrest⟩ := delegate_of_grant hgrant
          have hu : u.Offers r.id ids := fun hw => hnames ▸ h hw
          obtain ⟨v, htable', -, htake⟩ := outcome_take hu fun id => do
            let k ← delegateAs id l scope window r
            return (.ok k : Except Refusal Token)
          have hadd := delegateAs_outcome (s := v) (ids.take r.id).1 l scope window r
          rw [htable', htable] at hadd
          rw [hrest, htake, outcome_map, hadd]
          dsimp only
          cases s.table.delegateAs (ids.take r.id).1 l scope window r <;> rfl

end Names

theorem revoke_outcome (hs : s.table.Sound) (id : String) :
    outcome (revoke id) s = settled s.table (s.table.revoke id) := by
  unfold revoke Table.revoke outcome
  simp only [EStateM.run_bind, EStateM.run_get]
  cases hk : s.table.get? id with
  | none => rfl
  | some k =>
      by_cases hrevoked : k.revoked = true
      · simp only [hrevoked, if_true]
        rfl
      · -- under distinct names one token is replaced, with what was found under its name
        have hput : s.table.put { k with revoked := true } =
            ⟨s.table.tokens.map fun l => if l.id = id then { l with revoked := true } else l⟩ := by
          obtain ⟨hmem, rfl⟩ := Table.get?_some hk
          rw [Table.put, if_pos (Table.has_of_get? hk), Table.mk.injEq]
          refine List.map_congr_left fun l hl => ?_
          split
          · rename_i hid
            rw [hs.eq_of_id hl hmem hid]
          · rfl
        simp only [hrevoked, ← hput]
        rfl

theorem revalidate_outcome (held : List String) (at? : Option Number) :
    (∃ e, outcome (revalidate held at?) s = (.error e, s.table)) ∨
      ∃ instant,
        outcome (revalidate held at?) s = (.ok (s.table.revalidate held instant), s.table) := by
  cases at? with
  | some instant => exact .inr ⟨instant, rfl⟩
  | none =>
      simp only [outcome, revalidate, now, EStateM.run_bind, EStateM.run_get, EStateM.run_set]
      cases s.readings 0 with
      | error f => exact .inl ⟨_, rfl⟩
      | ok instant => exact .inr ⟨instant, rfl⟩

inductive Comes (t : Table) : Call → Except Fault Answer → Table → Prop
  | thrown {c e} : Comes t c (.error e) t
  | minted {r k u clock ids} : (t.mint clock ids r).1 = .ok (k, u) →
      Comes t (.mint r) (.ok (.added k)) u
  | delegated {parent r k u clock ids} : (t.delegate clock ids parent r).1 = .ok (.ok (k, u)) →
      Comes t (.delegate parent r) (.ok (.added k)) u
  | refused {parent r refusal} : Comes t (.delegate parent r) (.ok (.refused refusal)) t
  | revoked {id changed u} : t.revoke id = .ok (changed, u) →
      Comes t (.revoke id) (.ok (.revoked changed)) u
  | checked {held at? instant} :
      Comes t (.revalidate held at?) (.ok (.checked (t.revalidate held instant))) t

theorem call_eq (s : TokenStore) (c : Call) :
    ((s.call c).1, (s.call c).2.table) = outcome (perform c) s := by
  unfold call outcome
  cases (perform c).run s <;> rfl

theorem mint_comes (s : TokenStore) (r : MintRequest) :
    Comes s.table (.mint r) ((outcome (mint r) s).1.map .added) (outcome (mint r) s).2 := by
  rcases offers_or_fails s r.id with ⟨ids, h⟩ | ⟨hw, message, h⟩
  · rw [mint_outcome h]
    cases hmint : (s.table.mint s.readings ids r).1 with
    | error f => exact .thrown
    | ok added => exact .minted hmint
  · rw [mint, hw, outcome_take_error h]
    exact .thrown

theorem delegate_comes (s : TokenStore) (parent : String) (r : DelegationRequest) :
    Comes s.table (.delegate parent r) ((outcome (delegate parent r) s).1.map .ofDelegation)
      (outcome (delegate parent r) s).2 := by
  rcases offers_or_fails s r.id with ⟨ids, h⟩ | ⟨hw, message, h⟩
  · rw [delegate_outcome h]
    cases hdelegate : (s.table.delegate s.readings ids parent r).1 with
    | error f => exact .thrown
    | ok granted =>
        cases granted with
        | error refusal => exact .refused
        | ok added => exact .delegated hdelegate
  · cases hgrant : s.table.grant s.readings parent r with
    | error f =>
        rw [delegate_of_fault hgrant]
        exact .thrown
    | ok granted =>
        cases granted with
        | error refusal =>
            rw [delegate_of_refusal hgrant]
            exact .refused
        | ok term =>
            obtain ⟨u, htable, hnames, hrest⟩ := delegate_of_grant hgrant
            rw [← hnames] at h
            rw [hrest, hw, outcome_take_error h, htable]
            exact .thrown

theorem perform_comes (hs : s.table.Sound) (c : Call) :
    Comes s.table c (outcome (perform c) s).1 (outcome (perform c) s).2 := by
  cases c with
  | mint r =>
      rw [perform, outcome_map]
      exact mint_comes s r
  | delegate parent r =>
      rw [perform, outcome_map]
      exact delegate_comes s parent r
  | revoke id =>
      rw [perform, outcome_map, revoke_outcome hs]
      cases hrevoke : s.table.revoke id with
      | error f => exact .thrown
      | ok changed => exact .revoked hrevoke
  | revalidate held at? =>
      rw [perform, outcome_map]
      rcases revalidate_outcome (s := s) held at? with ⟨e, h⟩ | ⟨instant, h⟩
      · rw [h]
        exact .thrown
      · rw [h]
        exact .checked

def Idle : Except Fault Answer → Prop
  | .ok (.added _) | .ok (.revoked true) => False
  | _ => True

section Calls

variable {t t' : Table} {c : Call} {a : Except Fault Answer}

theorem Comes.reached (h : Comes t c a t') (ht : t.Reached) : t'.Reached := by
  cases h with
  | thrown | refused | checked => exact ht
  | minted h => exact ht.mint h
  | delegated h => exact ht.delegate h
  | revoked h => exact ht.revoke h

theorem Comes.unchanged (h : Comes t c a t') (ha : Idle a) : t' = t := by
  cases h with
  | thrown | refused | checked => rfl
  | minted | delegated => cases ha
  | @revoked _ changed _ h =>
      cases changed with
      | true => cases ha
      | false => exact Table.eq_of_revoke_idle h

theorem Comes.gains (h : Comes t c (.ok (.added k)) t') (ht : t.Sound) : t.Gains k t' := by
  cases h with
  | minted h =>
      obtain ⟨rfl, fresh, -⟩ := Table.mintAs_ok h
      exact ht.gains fresh
  | delegated h =>
      obtain ⟨_, _, _, _, -, hadd⟩ := Table.delegate_ok h
      obtain ⟨rfl, fresh, -⟩ := Table.delegateAs_ok hadd
      exact ht.gains fresh

theorem call_comes (hs : s.table.Reached) (c : Call) :
    Comes s.table c (s.call c).1 (s.call c).2.table := by
  have h := perform_comes hs.sound c
  rwa [← call_eq] at h

theorem run_reached (hs : s.table.Reached) (calls : List Call) :
    (s.run calls).table.Reached := by
  induction calls generalizing s with
  | nil => exact hs
  | cons c calls ih => exact ih ((call_comes hs c).reached hs)

theorem all_or_nothing (hs : s.table.Reached) (c : Call) :
    (Idle (s.call c).1 → (s.call c).2.table = s.table) ∧
      ∀ k, (s.call c).1 = .ok (.added k) → s.table.Gains k (s.call c).2.table := by
  have h := call_comes hs c
  refine ⟨h.unchanged, fun k hk => ?_⟩
  rw [hk] at h
  exact h.gains hs.sound

def opened : TokenStore :=
  ⟨.empty, fun n => if n < 2 then .ok 4 else .error (.bare "stuck"), fun n => .ok (toString n)⟩

def begun : TokenStore :=
  opened.run [.mint ⟨none, "host", "lead", ["mail", "web"], ⟨none, none⟩⟩]

def toAgent (start : Option Number) : Call :=
  .delegate "0" ⟨none, ["mail"], ⟨start, some 9⟩, some "agent", none⟩

theorem all_or_nothing_of_begun :
    (begun.call (toAgent none)).1 = .error (.token (.clock (.bare "stuck"))) ∧
      (begun.call (toAgent none)).2.table = begun.table ∧
      ∃ k, begun.table.Gains k (begun.call (toAgent (some 5))).2.table := by
  have hs : begun.table.Reached := run_reached (s := opened) .empty _
  have hthrown : (begun.call (toAgent none)).1 = .error (.token (.clock (.bare "stuck"))) := by
    decide +kernel
  have hadded : (begun.call (toAgent (some 5))).1 =
      .ok (.added ⟨"1", "host", "agent", ["mail"], ⟨5, some 9⟩, some "0", false⟩) := by
    decide +kernel
  refine ⟨hthrown, (all_or_nothing hs _).1 ?_, _, (all_or_nothing hs _).2 _ hadded⟩
  rw [hthrown]
  trivial

end Calls

end TokenStore

end ToolGate
