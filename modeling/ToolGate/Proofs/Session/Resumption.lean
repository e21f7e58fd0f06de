import Mathlib.Data.List.Induction
import ToolGate.Proofs.Session.Operations
import ToolGate.Proofs.Token.Archiving
import ToolGate.Proofs.Token.Barring

namespace ToolGate.Session

inductive Act where
  | mint (clock : Clock) (ids : IdSource) (r : MintRequest)
  | delegate (clock : Clock) (ids : IdSource) (parent : String) (r : DelegationRequest)
  | revoke (id : String)
  | suspend
  | resume (held : List String) (now : Reading)

def Act.isResume : Act → Bool
  | .resume .. => true
  | _ => false

def Act.isSuspend : Act → Bool
  | .suspend => true
  | _ => false

def Act.onTable (t : Table) : Act → Table
  | .mint clock ids r =>
      match (t.mint clock ids r).1 with
      | .error _ => t
      | .ok (_, t') => t'
  | .delegate clock ids parent r =>
      match (t.delegate clock ids parent r).1 with
      | .error _ | .ok (.error _) => t
      | .ok (.ok (_, t')) => t'
  | .revoke id =>
      match t.revoke id with
      | .error _ => t
      | .ok (_, t') => t'
  | .suspend | .resume .. => t

def after {α : Type} (s : Session) (a : Act) : Except SessionFault (α × Session) → Session
  | .error _ => s.setTable (a.onTable s.current.table)
  | .ok (_, s') => s'

def act (s : Session) (a : Act) : Session :=
  match a with
  | .mint clock ids r => s.after a (s.mint clock ids r).1
  | .delegate clock ids parent r => s.after a (s.delegate clock ids parent r).1
  | .revoke id => s.after a (s.revoke id)
  | .suspend => s.suspend.2
  | .resume held now => s.after a (s.resume s.current.id held now)

theorem revoke_act {s : Session} {id : String} (h : (s.revoke id).isOk) :
    ∃ changed, s.revoke id = .ok (changed, s.act (.revoke id)) := by
  obtain ⟨⟨changed, s'⟩, hrevoke⟩ := exists_ok h
  refine ⟨changed, ?_⟩
  rw [act, hrevoke, after]

theorem suspend_act {s : Session} (h : s.suspend.1.isOk) :
    ∃ text, s.suspend = (.ok text, s.act .suspend) := by
  obtain ⟨text, hsuspend⟩ := exists_ok h
  exact ⟨text, Prod.ext hsuspend rfl⟩

def run (s : Session) (acts : List Act) : Session :=
  acts.foldl act s

theorem run_cons (s : Session) (a : Act) (acts : List Act) :
    s.run (a :: acts) = (s.act a).run acts := rfl

theorem run_append (s : Session) (acts more : List Act) :
    s.run (acts ++ more) = (s.run acts).run more :=
  List.foldl_append

inductive Step (s : Session) : Act → Session → Prop
  | idle {a journal} : Step s a { s with journal }
  | mint {clock ids r k table journal} : (s.current.table.mint clock ids r).1 = .ok (k, table) →
      Step s (.mint clock ids r) { s.setTable table with journal }
  | delegate {clock ids parent r k table journal} :
      (s.current.table.delegate clock ids parent r).1 = .ok (.ok (k, table)) →
      Step s (.delegate clock ids parent r) { s.setTable table with journal }
  | revoke {id changed table journal} : s.current.table.revoke id = .ok (changed, table) →
      Step s (.revoke id) { s.setTable table with journal }
  | suspend {saved archive journal} :
      Archive.save s.archive s.current.id (Snapshot.write s.current.table) = (saved, archive) →
      Step s .suspend { s with archive, journal }
  | resume {held now text standing x journal} :
      Archive.load s.archive s.current.id = .ok (some text) →
      Execution.restore s.current.id s.policy text.encoded held now = .ok (standing, x) →
      Step s (.resume held now) { s with current := x, journal }

theorem step_onTable (s : Session) (a : Act) :
    Step s a (s.setTable (a.onTable s.current.table)) := by
  cases a with
  | mint clock ids r =>
      rw [Act.onTable]
      split
      · exact .idle
      · exact .mint ‹_›
  | delegate clock ids parent r =>
      rw [Act.onTable]
      split
      · exact .idle
      · exact .idle
      · exact .delegate ‹_›
  | revoke id =>
      rw [Act.onTable]
      split
      · exact .idle
      · exact .revoke ‹_›
  | suspend => exact .idle
  | resume held now => exact .idle

theorem step_act (s : Session) (a : Act) : Step s a (s.act a) := by
  cases a with
  | mint clock ids r =>
      cases hmint : (s.mint clock ids r).1 with
      | error f =>
          rw [act, hmint]
          exact step_onTable s _
      | ok minted =>
          obtain ⟨table, htable, hnote⟩ := mint_ok.1 hmint
          obtain ⟨_, journal, -, hs⟩ := note_ok.1 hnote
          rw [act, hmint, after, ← hs]
          exact .mint htable
  | delegate clock ids parent r =>
      cases hdelegate : (s.delegate clock ids parent r).1 with
      | error f =>
          rw [act, hdelegate]
          exact step_onTable s _
      | ok granted =>
          obtain ⟨refusal | k, s'⟩ := granted
          · obtain ⟨-, hnote⟩ := delegate_refused.1 hdelegate
            obtain ⟨_, journal, -, hs⟩ := note_ok.1 hnote
            rw [act, hdelegate, after, ← hs]
            exact .idle
          · obtain ⟨table, htable, hnote⟩ := delegate_ok.1 hdelegate
            obtain ⟨_, journal, -, hs⟩ := note_ok.1 hnote
            rw [act, hdelegate, after, ← hs]
            exact .delegate htable
  | revoke id =>
      cases hrevoke : s.revoke id with
      | error f =>
          rw [act, hrevoke]
          exact step_onTable s _
      | ok revoked =>
          obtain ⟨table, htable, hnote⟩ := revoke_ok.1 hrevoke
          obtain ⟨_, journal, -, hs⟩ := note_ok.1 hnote
          rw [act, hrevoke, after, ← hs]
          exact .revoke htable
  | suspend =>
      obtain ⟨journal, hs⟩ := suspend_state s
      rw [act, hs]
      exact .suspend rfl
  | resume held now =>
      cases hresume : s.resume s.current.id held now with
      | error f =>
          rw [act, hresume]
          exact step_onTable s _
      | ok resumed =>
          obtain ⟨text, x, hload, hrestore, noted, hnote, hx⟩ := resume_ok.1 hresume
          obtain ⟨_, journal, -, rfl⟩ := note_ok.1 hnote
          rw [act, hresume, after, ← hx]
          exact .resume hload hrestore

variable {s s' : Session} {a : Act} {acts : List Act} {id text : String} {held : List String}
  {now : Reading} {standing : Revalidation}

theorem run_induction {P : Session → Prop} {Q : Act → Prop} (start : P s)
    (step : ∀ s a s', Q a → Step s a s' → P s → P s') (hacts : ∀ a ∈ acts, Q a) :
    P (s.run acts) := by
  induction acts using List.reverseRecOn with
  | nil => exact start
  | append_singleton acts a ih =>
      rw [List.forall_mem_append, List.forall_mem_singleton] at hacts
      rw [run_append]
      exact step _ a _ hacts.2 (step_act _ a) (ih hacts.1)

theorem Step.table_reached (hs : Step s a s') (ht : s.current.table.Reached) :
    s'.current.table.Reached := by
  cases hs with
  | idle => exact ht
  | mint h => exact ht.mint h
  | delegate h => exact ht.delegate h
  | revoke h => exact ht.revoke h
  | suspend _ => exact ht
  | resume _ hrestore =>
      obtain ⟨t, instant, hread, -, -, rfl⟩ := Execution.restore_ok.1 hrestore
      exact .read hread

theorem table_reached_run (ht : s.current.table.Reached) (acts : List Act) :
    (s.run acts).current.table.Reached :=
  run_induction (P := fun s => s.current.table.Reached) (Q := fun _ => True) ht
    (fun _ _ _ _ hs ht => hs.table_reached ht) fun _ _ => trivial

theorem Step.bars (hs : Step s a s') (ha : ¬a.isResume) (hb : s.current.table.Bars id) :
    s'.current.table.Bars id := by
  cases hs with
  | idle => exact hb
  | mint h => exact hb.mint h
  | delegate h => exact hb.delegate h
  | revoke h => exact hb.revoke h
  | suspend _ => exact hb
  | resume _ _ => exact absurd rfl ha

theorem bars_run (hb : s.current.table.Bars id) (hacts : ∀ a ∈ acts, ¬a.isResume) :
    (s.run acts).current.table.Bars id :=
  run_induction (P := fun s => s.current.table.Bars id) hb
    (fun _ _ _ ha hs hb => hs.bars ha hb) hacts

structure Settles (s : Session) (id : String) : Prop where
  sound : s.current.table.Sound
  live : s.current.table.Bars id
  saved : ∃ t,
    Archive.load s.archive s.current.id = .ok (some (.ofString (Snapshot.write t))) ∧ t.Sound ∧
    t.Bars id

theorem settles_of_suspend (ht : s.current.table.Sound) (hb : s.current.table.Bars id)
    (h : s.suspend = (.ok text, s')) : s'.Settles id := by
  obtain ⟨-, archive, hsave, hnote⟩ := suspend_ok.1 h
  obtain ⟨_, journal, -, rfl⟩ := note_ok.1 hnote
  exact ⟨ht, hb, s.current.table, Archive.load_save_ofString hsave, ht, hb⟩

theorem Settles.resume (h : s.Settles id) {x : Execution} {text : Text.Wide}
    (hload : Archive.load s.archive s.current.id = .ok (some text))
    (hrestore : Execution.restore s.current.id s.policy text.encoded held now =
      .ok (standing, x)) :
    x.id = s.current.id ∧ x.table.Sound ∧ x.table.Bars id ∧
      ∃ instant, standing = x.table.revalidate held instant := by
  obtain ⟨t, hsaved, ht, hb⟩ := h.saved
  obtain rfl : text = .ofString (Snapshot.write t) := by simpa using hload.symm.trans hsaved
  rw [Text.Wide.encoded_ofString] at hrestore
  obtain ⟨t', instant, hread, -, hstanding, rfl⟩ := Execution.restore_ok.1 hrestore
  obtain rfl : t.settled = t' := by simpa using ht.read_write.symm.trans hread
  exact ⟨rfl, ht.settled, hb.settled, instant, hstanding.symm⟩

theorem Step.settles (hs : Step s a s') (h : s.Settles id) : s'.Settles id := by
  cases hs with
  | idle => exact { h with }
  | mint hmint =>
      obtain ⟨rfl, fresh, hk⟩ := Table.mintAs_ok hmint
      exact { h with sound := h.sound.add fresh hk, live := h.live.add fresh }
  | delegate hdelegate =>
      exact { h with sound := h.sound.delegate hdelegate, live := h.live.delegate hdelegate }
  | revoke hrevoke =>
      exact { h with sound := h.sound.revoke hrevoke, live := h.live.revoke hrevoke }
  | @suspend saved archive journal hsave =>
      refine { h with saved := ?_ }
      cases saved with
      | ok u => exact ⟨s.current.table, Archive.load_save_ofString hsave, h.sound, h.live⟩
      | error f =>
          obtain ⟨t, hsaved, ht⟩ := h.saved
          exact ⟨t, Archive.load_of_save_error hsaved hsave, ht⟩
  | resume hload hrestore =>
      obtain ⟨hid, ht, hb, -⟩ := h.resume hload hrestore
      refine ⟨ht, hb, ?_⟩
      rw [hid]
      exact h.saved

theorem Settles.run (h : s.Settles id) (acts : List Act) : (s.run acts).Settles id :=
  run_induction (P := fun s => s.Settles id) (Q := fun _ => True) h
    (fun _ _ _ _ hs h => hs.settles h) fun _ _ => trivial

theorem Settles.notMem_lineage (h : s.Settles id)
    (hresume : s.resume s.current.id held now = .ok (standing, s')) :
    ∀ k ∈ standing.effective, id ∉ s'.current.table.lineage k.id := by
  intro k hk
  obtain ⟨text, x, hload, hrestore, noted, -, rfl⟩ := resume_ok.1 hresume
  obtain ⟨-, ht, hb, instant, rfl⟩ := h.resume hload hrestore
  exact hb.notMem_lineage ht hk

theorem revocation_outlasts_suspension {before : List Act} (between later : List Act)
    {s₁ s₂ s₃ : Session} {changed : Bool} (ht : s.current.table.Reached)
    (hrevoke : (s.run before).revoke id = .ok (changed, s₁))
    (hbetween : ∀ a ∈ between, ¬a.isResume) (hsuspend : (s₁.run between).suspend = (.ok text, s₂))
    (hresume : (s₂.run later).resume (s₂.run later).current.id held now = .ok (standing, s₃)) :
    ∀ k ∈ standing.effective, id ∉ s₃.current.table.lineage k.id := by
  obtain ⟨table, htable, hnote⟩ := revoke_ok.1 hrevoke
  obtain ⟨_, journal, -, hs⟩ := note_ok.1 hnote
  have hcurrent : s₁.current.table = table := by rw [← hs, setTable]
  have hreached : s₁.current.table.Reached := by
    rw [hcurrent]
    exact (table_reached_run ht before).revoke htable
  have hbars : s₁.current.table.Bars id := by
    rw [hcurrent]
    exact Table.bars_of_revoke htable
  have hsettles : s₂.Settles id :=
    settles_of_suspend (table_reached_run hreached between).sound (bars_run hbars hbetween) hsuspend
  exact (hsettles.run later).notMem_lineage hresume

theorem Step.keeps_archive (hs : Step s a s') (ha : ¬a.isSuspend) :
    s'.current.id = s.current.id ∧ s'.archive = s.archive := by
  cases hs with
  | suspend _ => exact absurd rfl ha
  | resume _ hrestore =>
      obtain ⟨t, instant, -, -, -, rfl⟩ := Execution.restore_ok.1 hrestore
      exact ⟨rfl, rfl⟩
  | _ => exact ⟨rfl, rfl⟩

theorem archive_run (hacts : ∀ a ∈ acts, ¬a.isSuspend) :
    (s.run acts).current.id = s.current.id ∧ (s.run acts).archive = s.archive := by
  refine run_induction (P := fun r => r.current.id = s.current.id ∧ r.archive = s.archive)
    ⟨rfl, rfl⟩ ?_ hacts
  intro r a r' ha hs hr
  obtain ⟨hid, harchive⟩ := hs.keeps_archive ha
  exact ⟨hid.trans hr.1, harchive.trans hr.2⟩

theorem resume_suspended (between : List Act) {s₁ : Session} (ht : s.current.table.Sound)
    (hsuspend : s.suspend = (.ok text, s₁)) (hbetween : ∀ a ∈ between, ¬a.isSuspend)
    (held : List String) (instant : Number) :
    (s₁.run between).resume (s₁.run between).current.id held (.ok instant) =
      ((s₁.run between).note
        (.restored s.current.id (s.current.table.settled.revalidate held instant))).map fun noted =>
          (s.current.table.settled.revalidate held instant,
            { noted with
              current :=
                .start s.current.id (s₁.run between).policy s.current.table.settled }) := by
  obtain ⟨-, archive, hsave, hnote⟩ := suspend_ok.1 hsuspend
  obtain ⟨_, journal, -, hs⟩ := note_ok.1 hnote
  obtain ⟨hid, harchive⟩ := archive_run (s := s₁) hbetween
  have hcurrent : s₁.current.id = s.current.id := by rw [← hs]
  have hload : Archive.load (s₁.run between).archive s.current.id =
      .ok (some (.ofString (Snapshot.write s.current.table))) := by
    rw [harchive, ← hs, Archive.load_save_ofString hsave]
  rw [hid, hcurrent, resume, hload]
  simp only [ok_mapError, bind, Except.bind, Text.Wide.encoded_ofString, Execution.restore_write ht]
  cases (s₁.run between).note
    (.restored s.current.id (s.current.table.settled.revalidate held instant)) <;> rfl

namespace Resumption

def policy : Policy := ⟨"mail", false, true, ⟨10, 4, 8, 4⟩, []⟩

def clock : Clock := fun _ => .ok 1000

def ids : IdSource := ⟨fun n => toString n, 0⟩

@[irreducible]
def opened : Session :=
  ⟨policy, ⟨.memory [], .debug, .at 0, ids⟩, .new "snapshots", none, .start "exec-1" policy .empty⟩

def grant (id : String) : Act :=
  .mint clock ids ⟨some id, "host", "agent", ["mail.send"], ⟨none, none⟩⟩

def grants : List Act := [grant "t", grant "u"]

def granted : Session := opened.run grants

def struck : Session := granted.act (.revoke "t")

def saved : Session := granted.act .suspend

theorem opened_fresh : opened.current.table = .empty ∧ opened.archive.files = [] := by
  rw [opened]
  exact ⟨rfl, rfl⟩

theorem opened_reached : opened.current.table.Reached := by
  rw [opened_fresh.1]
  exact .empty

theorem granted_reached : granted.current.table.Reached :=
  table_reached_run opened_reached grants

theorem saved_eq : opened.run (grants ++ [.suspend]) = saved :=
  run_append opened grants [.suspend]

end Resumption

open Resumption in
theorem revocation_outlasts_suspension_of_struck :
    ∃ changed s₁ text s₂ standing s₃, granted.revoke "t" = .ok (changed, s₁) ∧
      s₁.suspend = (.ok text, s₂) ∧
      s₂.resume s₂.current.id ["t", "u"] (.ok 1000) = .ok (standing, s₃) ∧
      standing.effective.map Token.id = ["u"] ∧
      ∀ k ∈ standing.effective, "t" ∉ s₃.current.table.lineage k.id := by
  obtain ⟨changed, hrevoke⟩ : ∃ changed, granted.revoke "t" = .ok (changed, struck) :=
    revoke_act (by decide +kernel)
  obtain ⟨text, hsuspend⟩ : ∃ text, struck.suspend = (.ok text, struck.act .suspend) :=
    suspend_act (by decide +kernel)
  have hsound : struck.current.table.Sound := by
    rw [struck]
    exact ((step_act _ _).table_reached granted_reached).sound
  obtain ⟨noted, hnote⟩ : ∃ noted, ((struck.act .suspend).run []).note (.restored struck.current.id
      (struck.current.table.settled.revalidate ["t", "u"] 1000)) = .ok noted :=
    exists_ok (by decide +kernel)
  have hresume := resume_suspended [] hsound hsuspend (by simp) ["t", "u"] 1000
  rw [hnote] at hresume
  have hids : (struck.current.table.settled.revalidate ["t", "u"] 1000).effective.map Token.id =
      ["u"] := by
    decide +kernel
  refine ⟨changed, struck, text, struck.act .suspend, _, _, hrevoke, hsuspend, hresume, hids, ?_⟩
  exact revocation_outlasts_suspension [] [] opened_reached hrevoke (by simp) hsuspend hresume

open Resumption in
theorem not_revocation_outlasts_resumption :
    ¬∀ (s : Session) (before after : List Act) (id : String) (changed : Bool) (s₁ : Session)
      (held : List String) (now : Reading) (standing : Revalidation) (s₂ : Session),
      s.current.table = .empty ∧ s.archive.files = [] →
      (s.run before).revoke id = .ok (changed, s₁) →
      (s₁.run after).resume (s₁.run after).current.id held now = .ok (standing, s₂) →
      ∀ k ∈ standing.effective, id ∉ s₂.current.table.lineage k.id := by
  intro hclaim
  obtain ⟨text, hsuspend⟩ : ∃ text, granted.suspend = (.ok text, saved) :=
    suspend_act (by decide +kernel)
  obtain ⟨changed, hrevoke⟩ : ∃ changed,
      saved.revoke "t" = .ok (changed, saved.act (.revoke "t")) :=
    revoke_act (by decide +kernel)
  obtain ⟨noted, hnote⟩ : ∃ noted, (saved.run [.revoke "t"]).note (.restored granted.current.id
      (granted.current.table.settled.revalidate ["t"] 1000)) = .ok noted :=
    exists_ok (by decide +kernel)
  have hresume := resume_suspended [.revoke "t"] granted_reached.sound hsuspend
    (by simp [Act.isSuspend]) ["t"] 1000
  rw [hnote, run_cons] at hresume
  rw [← saved_eq] at hrevoke
  obtain ⟨k, hk, hline⟩ : ∃ k ∈ (granted.current.table.settled.revalidate ["t"] 1000).effective,
      "t" ∈ granted.current.table.settled.lineage k.id := by
    decide +kernel
  exact hclaim opened _ [] "t" changed _ _ _ _ _ opened_fresh hrevoke hresume k hk hline

end ToolGate.Session
