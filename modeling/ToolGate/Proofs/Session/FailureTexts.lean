import ToolGate.Proofs.Journal.Messages
import ToolGate.Proofs.Session.Trail

namespace ToolGate

open Text (Wide)

variable {e k : Entry} {n : Note} {floor : Severity}

inductive Store.Adds : Store → List Entry → Store → Prop
  | none (st) : Adds st [] st
  | memory {es k added st} : Adds (.memory (es ++ [k])) added st →
      Adds (.memory es) (k :: added) st
  | line {d day k added st} : DayFiles.dayOf k.instant = .ok day →
      Adds (.dayFiles (d.make.addLine (DayFiles.fileName day) k.json.text)) added st →
      Adds (.dayFiles d) (k :: added) st

theorem Store.Adds.trans {st st' st'' : Store} {added more : List Entry} (h : st.Adds added st')
    (hmore : st'.Adds more st'') : st.Adds (added ++ more) st'' := by
  induction h with
  | none => exact hmore
  | memory _ ih => exact .memory (ih hmore)
  | line hday _ ih => exact .line hday (ih hmore)

theorem Store.adds_append {st st' : Store} (hk : e.sanitized = .ok k)
    (h : st.append e = (.ok (), st')) : st.Adds [k] st' := by
  cases st with
  | memory es =>
      simp only [append, hk] at h
      cases h
      exact .memory (.none _)
  | dayFiles d =>
      simp only [append, DayFiles.append, hk] at h
      cases hday : DayFiles.dayOf k.instant with
      | error f =>
          rw [hday] at h
          cases h
      | ok day =>
          rw [hday] at h
          cases h
          exact .line hday (.none _)

theorem Note.Keepable.adds_log {j j' : Journal} {kept : Bool} (hn : n.Keepable)
    (h : j.log n = (.ok kept, j')) : j'.floor = j.floor ∧ ∃ added, j.store.Adds added j'.store ∧
      (if n.severity.rank < j.floor.rank then added = []
        else ∃ id, added = [{ n.kept j.now with id }]) := by
  unfold Journal.log at h
  split at h
  · rename_i hlow
    cases h
    exact ⟨rfl, [], .none _, if_pos hlow ▸ rfl⟩
  · rename_i hlow
    have hclean := hn.sanitized j.ids.draw.1 j.now
    cases happend : j.store.append (n.entry j.ids.draw.1 j.now) with
    | mk r st =>
        rw [Note.entry] at happend
        simp only [happend] at h
        cases r with
        | error f => cases h
        | ok u =>
            cases h
            refine ⟨rfl, _, Store.adds_append hclean happend, ?_⟩
            rw [if_neg hlow]
            exact ⟨_, rfl⟩

namespace Entry

def denialText? (e : Entry) : Option Wide :=
  if e.category = .decision ∧ e.action = "deny" then
    e.metadata.bind fun ms => (ms.get? "message").bind Json.text?
  else none

def refusalText? (e : Entry) : Option Wide :=
  if e.category = .authority ∧ e.action = "delegation_refused" then
    e.metadata.bind fun ms => (ms.get? "errorMessage").bind Json.text?
  else none

end Entry

namespace Session

open Operation

variable {s s' : Session} {op : Operation} {added more : List Entry} {events later : List Event}

namespace Event

def passes (floor : Severity) (e : Event) : Bool :=
  e.heading?.any (floor.rank ≤ ·.severity.rank)

def denialText? : Event → Option Wide
  | ⟨_, .mediate .., .ok (v : Evaluation)⟩ => v.decision.denial?.map fun d => d.message
  | _ => none

def refusalText? : Event → Option Wide
  | ⟨_, .delegate _ _ parent _, .ok (.error (refusal : Refusal))⟩ => some (refusal.message parent)
  | _ => none

end Event

/-- The entries tell of the failures among the events that pass the floor: of refusals by cleaned
texts, of denials by the texts as they are. -/
structure Tells (floor : Severity) (events : List Event) (added : List Entry) : Prop where
  denials : added.filterMap Entry.denialText? =
    (events.filter (·.passes floor)).filterMap Event.denialText?
  refusals : added.filterMap Entry.refusalText? =
    ((events.filter (·.passes floor)).filterMap Event.refusalText?).map cleanMessage

theorem tells_nil (floor : Severity) : Tells floor [] [] where
  denials := rfl
  refusals := rfl

theorem Tells.append (h : Tells floor events added) (hlater : Tells floor later more) :
    Tells floor (events ++ later) (added ++ more) where
  denials := by
    rw [List.filterMap_append, h.denials, hlater.denials, List.filter_append, List.filterMap_append]
  refusals := by
    rw [List.filterMap_append, h.refusals, hlater.refusals, List.filter_append,
      List.filterMap_append, List.map_append]

theorem tells_of_not_passes {e : Event} (h : e.passes floor = false) : Tells floor [e] [] where
  denials := by simp [h]
  refusals := by simp [h]

theorem tells_of_passes {e : Event} (h : e.passes floor)
    (hdenial : k.denialText? = e.denialText?)
    (hrefusal : k.refusalText? = e.refusalText?.map cleanMessage) : Tells floor [e] [k] where
  denials := by
    rw [List.filter_cons_of_pos h, List.filter_nil]
    simp only [List.filterMap_cons, List.filterMap_nil, hdenial]
  refusals := by
    rw [List.filter_cons_of_pos h, List.filter_nil]
    simp only [List.filterMap_cons, List.filterMap_nil, hrefusal]
    cases e.refusalText? <;> rfl

theorem get?_message_decision (v : Evaluation) :
    (Note.decision v).metadata.bind (Named.get? "message") =
      v.decision.denial?.map fun d => .str (Wide.ofString d.message) := by
  simp [Note.decision, Named.get?, Named.get?_append, Entry.optionalText,
    Entry.get?_optionalMember]
  rfl

theorem denialText?_decision (v : Evaluation) (hrecord : v.record.action = v.decision.action)
    (id : String) (now : Instant) :
    Entry.denialText? { (Note.decision v).kept now with id } =
      v.decision.denial?.map fun d => Wide.ofString d.message := by
  obtain ⟨hnone, -⟩ | ⟨ms, ms', hms, hclean, hkept⟩ :=
    sanitized_ok.1 ((Note.keepable_decision v).sanitized id now)
  · cases hnone
  · have hmetadata : (Note.decision v).metadata = some ms := hms
    have hmessage := get?_message_decision v
    rw [hmetadata, Option.bind_some] at hmessage
    have hclean : ms'.get? "message" = ms.get? "message" :=
      get?_cleanMetadata hclean (by decide) (by decide)
    have haction : (Note.decision v).action = v.decision.action.name :=
      congrArg Action.name hrecord
    rw [← hkept]
    simp only [Entry.denialText?, Note.entry, haction, Option.bind_some, hclean, hmessage]
    cases v.decision with
    | allow => rfl
    | requireConfirmation => rfl
    | requireDraft => rfl
    | deny d => rfl

theorem effect_texts {r : op.Result} (h : s.effect op = (.ok (r, n), s')) (id : String)
    (now : Instant) :
    Entry.denialText? { n.kept now with id } = Event.denialText? ⟨s.current.id, op, .ok r⟩ ∧
      Entry.refusalText? { n.kept now with id } =
        (Event.refusalText? ⟨s.current.id, op, .ok r⟩).map cleanMessage := by
  cases op with
  | mediate request reading =>
      simp only [effect] at h
      split at h
      · cases h
      · rename_i v hv
        cases h
        have hrecord := congrArg Record.action (Execution.record_of_evaluate hv)
        exact ⟨denialText?_decision _ hrecord.symm id now, rfl⟩
  | preDispatch callId path redacted =>
      cases h
      exact ⟨rfl, rfl⟩
  | guardTransport callId redacted =>
      cases h
      exact ⟨rfl, rfl⟩
  | mint clock ids request =>
      simp only [effect] at h
      split at h <;> cases h
      exact ⟨rfl, rfl⟩
  | delegate clock ids parent request =>
      simp only [effect] at h
      split at h <;> cases h
      · exact ⟨rfl, rfl⟩
      · exact ⟨rfl, rfl⟩
  | revoke id =>
      simp only [effect] at h
      split at h <;> cases h
      cases r <;> exact ⟨rfl, rfl⟩
  | suspend =>
      simp only [effect] at h
      generalize Snapshot.write s.current.table = text at h
      generalize Archive.save s.archive s.current.id text = done at h
      obtain ⟨saved, archive⟩ := done
      cases saved with
      | error f => cases h
      | ok u =>
          cases h
          exact ⟨rfl, rfl⟩
  | resume execution held now =>
      simp only [effect] at h
      split at h
      · cases h
      · cases h
      · split at h <;> cases h
        exact ⟨rfl, rfl⟩

theorem passes_of_effect {r : op.Result} (h : s.effect op = (.ok (r, n), s')) (floor : Severity) :
    Event.passes floor ⟨s.current.id, op, .ok r⟩ = decide (floor.rank ≤ n.severity.rank) := by
  have hseverity : n.severity = (op.heading s.current.id r).severity :=
    congrArg Heading.severity (effect_note h).2
  rw [hseverity]
  rfl

theorem tells_of_note {r : op.Result} {s'' : Session} (h : s.effect op = (.ok (r, n), s'))
    (hnote : s'.note n = .ok s'') :
    s''.journal.floor = s.journal.floor ∧
      ∃ added, s.journal.store.Adds added s''.journal.store ∧
        Tells s.journal.floor [⟨s.current.id, op, .ok r⟩] added := by
  have hjournal : s'.journal = s.journal := by
    rw [← effect_keeps_journal s op, h]
  have hpasses := passes_of_effect h s.journal.floor
  obtain ⟨kept, journal, hlog, rfl⟩ := note_ok.1 hnote
  obtain ⟨hfloor, added, hadds, hadded⟩ := (effect_note h).1.adds_log hlog
  rw [hjournal] at hfloor hadds hadded
  refine ⟨hfloor, added, hadds, ?_⟩
  split at hadded
  · rename_i hlow
    subst hadded
    exact tells_of_not_passes (hpasses.trans (decide_eq_false (Nat.not_le.2 hlow)))
  · rename_i hlow
    obtain ⟨id, rfl⟩ := hadded
    obtain ⟨hdenial, hrefusal⟩ := effect_texts h id s.journal.now
    exact tells_of_passes (hpasses.trans (decide_eq_true (Nat.not_lt.1 hlow))) hdenial hrefusal

theorem take_tells (s : Session) (t : Turn) :
    (s.take t).2.journal.floor = s.journal.floor ∧
      ∃ added, s.journal.store.Adds added (s.take t).2.journal.store ∧
        Tells s.journal.floor [(s.take t).1] added := by
  have hjournal := effect_keeps_journal (s.prepare t) t.operation
  rw [take_eq, perform_noted]
  cases heffect : (s.prepare t).effect t.operation with
  | mk outcome s' =>
      rw [heffect] at hjournal
      cases outcome with
      | error f =>
          simp only at hjournal ⊢
          rw [hjournal]
          exact ⟨rfl, [], .none _, tells_of_not_passes rfl⟩
      | ok outcome =>
          obtain ⟨r, n⟩ := outcome
          cases hnote : s'.note n with
          | error f =>
              simp only [hnote]
              exact ⟨rfl, [], .none _, tells_of_not_passes rfl⟩
          | ok s'' =>
              simp only [hnote]
              exact tells_of_note heffect hnote

theorem play_tells (s : Session) (turns : List Turn) :
    ∃ added, s.journal.store.Adds added (s.play turns).2.journal.store ∧
      Tells s.journal.floor (s.play turns).1 added := by
  induction turns generalizing s with
  | nil => exact ⟨[], .none _, tells_nil _⟩
  | cons t turns ih =>
      obtain ⟨hfloor, first, hfirst, htold⟩ := take_tells s t
      obtain ⟨rest, hrest, hlater⟩ := ih (s.take t).2
      rw [hfloor] at hlater
      exact ⟨first ++ rest, hfirst.trans hrest, htold.append hlater⟩

theorem Tells.mem_denials (h : Tells floor events added) {text : Wide} :
    (∃ k ∈ added, k.denialText? = some text) ↔
      ∃ e ∈ events, e.passes floor ∧ e.denialText? = some text := by
  rw [← List.mem_filterMap, h.denials, List.mem_filterMap]
  simp only [List.mem_filter, and_assoc]

theorem failure_texts (s : Session) (turns : List Turn) : ∃ added,
    s.journal.store.Adds added (s.play turns).2.journal.store ∧
    Tells s.journal.floor (s.play turns).1 added ∧
    (∀ k ∈ added, ∀ text, k.refusalText? = some text → IsClean text) ∧
    ((∀ k ∈ added, ∀ text, k.denialText? = some text → IsClean text) ↔
      ∀ e ∈ (s.play turns).1, e.passes s.journal.floor → ∀ text, e.denialText? = some text →
        IsClean text) := by
  obtain ⟨added, hadds, htold⟩ := play_tells s turns
  refine ⟨added, hadds, htold, ?_, ?_, ?_⟩
  · intro k hk text htext
    have hmem : text ∈ added.filterMap Entry.refusalText? := List.mem_filterMap.2 ⟨k, hk, htext⟩
    rw [htold.refusals] at hmem
    obtain ⟨message, -, rfl⟩ := List.mem_map.1 hmem
    exact isClean_cleanMessage message
  · intro h e he hpasses text htext
    obtain ⟨k, hk, hkept⟩ := htold.mem_denials.2 ⟨e, he, hpasses, htext⟩
    exact h k hk text hkept
  · intro h k hk text htext
    obtain ⟨e, he, hpasses, hdenied⟩ := htold.mem_denials.1 ⟨k, hk, htext⟩
    exact h e he hpasses text hdenied

namespace FailureTexts

def refused : Turn :=
  ⟨id, .at 0, .delegate (fun _ => .ok 0) Trail.ids "a\nb"
    ⟨none, ["mail.read"], ⟨none, none⟩, none, none⟩⟩

end FailureTexts

open FailureTexts in
theorem failure_texts_of_refused : ∃ added,
    Trail.opened.journal.store.Adds added (Trail.opened.play [refused]).2.journal.store ∧
      added.filterMap Entry.refusalText? = [Wide.ofString "Parent token a b does not exist"] := by
  obtain ⟨added, hadds, htold, -⟩ := failure_texts Trail.opened [refused]
  exact ⟨added, hadds, htold.refusals.trans (by decide +kernel)⟩

namespace FailureTexts

def broken : Turn :=
  ⟨id, .at 0, .mediate ⟨"c1", "send\nmail", [], [], [], none, none, none⟩ (.ok 0)⟩

def text : Wide :=
  "Tool 'send\nmail' is not listed and the default action is deny"

theorem not_isClean_text : ¬IsClean text := by
  intro h
  have hbreak := (h.controls 0xA (by decide)).1 (by decide)
  cases hbreak

end FailureTexts

open FailureTexts in
theorem not_failure_texts : ¬∀ (s : Session) (turns : List Turn) (added : List Entry),
    s.journal.store.Adds added (s.play turns).2.journal.store →
      ∀ k ∈ added, ∀ text, k.denialText? = some text ∨ k.refusalText? = some text →
        IsClean text := by
  intro hclaim
  obtain ⟨added, hadds, htold⟩ := play_tells Trail.opened [broken]
  have hdenied : ∃ e ∈ (Trail.opened.play [broken]).1,
      e.passes Trail.opened.journal.floor ∧ e.denialText? = some text := by
    decide +kernel
  obtain ⟨k, hk, hkept⟩ := htold.mem_denials.2 hdenied
  exact not_isClean_text (hclaim _ _ added hadds k hk text (.inl hkept))

end Session

end ToolGate
