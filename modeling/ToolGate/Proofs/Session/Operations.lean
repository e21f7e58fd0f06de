import ToolGate.Proofs.Token.Restoration
import ToolGate.Session.Session

namespace ToolGate

theorem Execution.restore_ok {id : String} {p : Policy} {text : String} {held : List String}
    {now : Reading} {standing : Revalidation} {x : Execution} :
    Execution.restore id p text held now = .ok (standing, x) ↔
      ∃ t instant, Snapshot.read text = .ok t ∧ now = .ok instant ∧
        t.revalidate held instant = standing ∧ .start id p t = x := by
  simp only [restore, bind_ok, mapError_ok]
  cases now with
  | error f => simp [throw, throwThe, MonadExceptOf.throw]
  | ok instant => simp [pure, Except.pure]

theorem Execution.restore_write {t : Table} (ht : t.Sound) (id : String) (p : Policy)
    (held : List String) (instant : Number) :
    Execution.restore id p (Snapshot.write t) held (.ok instant) =
      .ok (t.settled.revalidate held instant, .start id p t.settled) :=
  restore_ok.2 ⟨t.settled, instant, ht.read_write, rfl, rfl, rfl⟩

namespace Session

variable {s s' : Session} {k : Token} {id text : String} {held : List String} {now : Reading}

theorem note_ok {n : Note} : s.note n = .ok s' ↔
    ∃ kept journal, s.journal.log n = (.ok kept, journal) ∧ { s with journal } = s' := by
  unfold note
  obtain ⟨r, journal⟩ := s.journal.log n
  cases r with
  | error f => simp
  | ok kept => simp only [Prod.mk.injEq, Except.ok.injEq]; grind

theorem mint_ok {clock : Clock} {ids : IdSource} {r : MintRequest} :
    (s.mint clock ids r).1 = .ok (k, s') ↔
      ∃ table, (s.current.table.mint clock ids r).1 = .ok (k, table) ∧
        (s.setTable table).note (.minted s.current.id k) = .ok s' := by
  unfold mint
  obtain ⟨minted, drawn⟩ := s.current.table.mint clock ids r
  cases minted with
  | error f => simp
  | ok added =>
      obtain ⟨l, table⟩ := added
      simp only [map_ok, Except.ok.injEq, Prod.mk.injEq]
      grind

theorem delegate_ok {clock : Clock} {ids : IdSource} {parent : String} {r : DelegationRequest} :
    (s.delegate clock ids parent r).1 = .ok (.ok k, s') ↔
      ∃ table, (s.current.table.delegate clock ids parent r).1 = .ok (.ok (k, table)) ∧
        (s.setTable table).note (.delegated s.current.id parent k) = .ok s' := by
  unfold delegate
  obtain ⟨granted, drawn⟩ := s.current.table.delegate clock ids parent r
  cases granted with
  | error f => simp
  | ok granted =>
      cases granted with
      | error refusal => simp [map_ok]
      | ok added =>
          obtain ⟨l, table⟩ := added
          simp only [map_ok, Except.ok.injEq, Prod.mk.injEq]
          grind

theorem delegate_refused {clock : Clock} {ids : IdSource} {parent : String} {r : DelegationRequest}
    {refusal : Refusal} :
    (s.delegate clock ids parent r).1 = .ok (.error refusal, s') ↔
      (s.current.table.delegate clock ids parent r).1 = .ok (.error refusal) ∧
        s.note (.refused s.current.id parent refusal) = .ok s' := by
  unfold delegate
  obtain ⟨granted, drawn⟩ := s.current.table.delegate clock ids parent r
  cases granted with
  | error f => simp
  | ok granted =>
      cases granted with
      | error refusal' =>
          simp only [map_ok, Except.ok.injEq, Prod.mk.injEq]
          grind
      | ok added => simp [map_ok]

theorem revoke_ok {changed : Bool} : s.revoke id = .ok (changed, s') ↔
    ∃ table, s.current.table.revoke id = .ok (changed, table) ∧
      (s.setTable table).note (.revoked s.current.id id changed) = .ok s' := by
  unfold revoke
  cases s.current.table.revoke id with
  | error f => simp
  | ok result =>
      obtain ⟨changed', table⟩ := result
      simp only [map_ok, Except.ok.injEq, Prod.mk.injEq]
      grind

theorem suspend_ok : s.suspend = (.ok text, s') ↔
    Snapshot.write s.current.table = text ∧
      ∃ archive, Archive.save s.archive s.current.id (Snapshot.write s.current.table) =
          (.ok (), archive) ∧
        { s with archive }.note (.saved s.current.id s.current.table.toList.length) = .ok s' := by
  cases hsave : Archive.save s.archive s.current.id (Snapshot.write s.current.table) with
  | mk saved archive =>
      cases saved with
      | error f => simp [suspend, writeSnapshot, hsave, error_mapError]
      | ok u =>
          simp only [suspend, writeSnapshot, hsave, ok_mapError]
          split <;> simp_all

theorem suspend_state (s : Session) : ∃ journal, s.suspend.2 =
    { s with
      archive := (Archive.save s.archive s.current.id (Snapshot.write s.current.table)).2
      journal } := by
  cases hsave : Archive.save s.archive s.current.id (Snapshot.write s.current.table) with
  | mk saved archive =>
      cases saved with
      | error f => exact ⟨s.journal, by simp [suspend, writeSnapshot, hsave, error_mapError]⟩
      | ok u =>
          simp only [suspend, writeSnapshot, hsave, ok_mapError]
          split
          · exact ⟨s.journal, rfl⟩
          · rename_i hnote
            obtain ⟨_, journal, -, rfl⟩ := note_ok.1 hnote
            exact ⟨journal, rfl⟩

theorem resume_ok {standing : Revalidation} : s.resume id held now = .ok (standing, s') ↔
    ∃ text x, Archive.load s.archive id = .ok (some text) ∧
      Execution.restore id s.policy text.encoded held now = .ok (standing, x) ∧
      ∃ noted, s.note (.restored id standing) = .ok noted ∧ { noted with current := x } = s' := by
  simp only [resume, bind_ok, mapError_ok]
  constructor
  · rintro ⟨loaded, hload, h⟩
    cases loaded with
    | none => cases h
    | some text =>
        obtain ⟨⟨standing, x⟩, hrestore, h⟩ := bind_ok.1 h
        obtain ⟨noted, hnote, h⟩ := bind_ok.1 h
        cases h
        exact ⟨text, x, hload, hrestore, noted, hnote, rfl⟩
  · rintro ⟨text, x, hload, hrestore, noted, hnote, rfl⟩
    refine ⟨some text, hload, ?_⟩
    exact bind_ok.2 ⟨_, hrestore, bind_ok.2 ⟨noted, hnote, rfl⟩⟩

end Session

end ToolGate
