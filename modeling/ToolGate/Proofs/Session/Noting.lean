import ToolGate.Proofs.Journal.Cleaning
import ToolGate.Proofs.Session.Operations
import ToolGate.Proofs.Verdict.Checks

namespace ToolGate

structure Heading where
  category : Category
  action : String
  severity : Severity
  execution : Option String
  callId : Option String
  token : Option Text.Wide
deriving DecidableEq

def tokenIn (metadata : Option (Named (Json Text.Wide))) : Option Text.Wide :=
  metadata.bind fun ms => (ms.get? "tokenId").bind Json.text?

def Entry.heading (e : Entry) : Heading :=
  ⟨e.category, e.action, e.severity, e.execution, e.callId, tokenIn e.metadata⟩

def Entry.unnamed (e : Entry) : Entry := { e with id := "" }

namespace Note

variable {n : Note}

def heading (n : Note) : Heading :=
  ⟨n.category, n.action, n.severity, n.execution, n.callId, tokenIn n.metadata⟩

def entry (n : Note) (id : String) (now : Instant) : Entry :=
  ⟨id, now, n.category, n.action, n.severity, n.execution, n.callId, n.metadata⟩

def Keepable (n : Note) : Prop :=
  ∀ ms, n.metadata = some ms → ∀ v, ms.get? "errorMessage" = some v → ∃ s, v = .str s

def kept (n : Note) (now : Instant) : Entry :=
  { n.entry "" now with metadata := n.metadata.bind fun ms => (cleanMetadata ms).toOption }

theorem Keepable.sanitized (h : n.Keepable) (id : String) (now : Instant) :
    (n.entry id now).sanitized = .ok { n.kept now with id } := by
  rw [sanitized_ok]
  cases hmetadata : n.metadata with
  | none => simp [entry, kept, hmetadata]
  | some ms =>
      obtain ⟨ms', hclean⟩ : ∃ ms', cleanMetadata ms = .ok ms' := by
        apply exists_cleanMetadata
        intro v hv
        obtain ⟨s, rfl⟩ := h ms hmetadata v hv
        rfl
      refine .inr ⟨ms, ms', hmetadata, hclean, ?_⟩
      simp [entry, kept, hmetadata, hclean, Except.toOption]

theorem Keepable.heading_kept (h : n.Keepable) (now : Instant) :
    (n.kept now).heading = n.heading := by
  have htoken : tokenIn (n.kept now).metadata = tokenIn n.metadata := by
    obtain h' | ⟨ms, ms', hms, hclean, h'⟩ := sanitized_ok.1 (h.sanitized "" now)
    · exact congrArg (fun e => tokenIn e.metadata) h'.2.symm
    · have hkept : (n.kept now).metadata = some ms' := congrArg Entry.metadata h'.symm
      have hmetadata : n.metadata = some ms := hms
      rw [hkept, hmetadata]
      simp only [tokenIn, Option.bind_some]
      rw [get?_cleanMetadata hclean (by decide) (by decide)]
  rw [Entry.heading, htoken]
  rfl

theorem keepable_of_get? {ms : Named (Json Text.Wide)} (hmetadata : n.metadata = some ms)
    (h : ms.get? "errorMessage" = none) : n.Keepable := by
  intro ms' hms' v hv
  rw [hmetadata] at hms'
  cases hms'
  rw [h] at hv
  cases hv

theorem keepable_policyLoaded (p : Policy) (path : String) : (policyLoaded p path).Keepable := by
  apply keepable_of_get? rfl
  simp [Named.get?]

theorem keepable_decision (e : Evaluation) : (decision e).Keepable := by
  apply keepable_of_get? rfl
  simp [Named.get?, Named.get?_append, Entry.optionalText, Entry.get?_optionalMember]

theorem tokenIn_decision (e : Evaluation) : tokenIn (decision e).metadata = none := by
  simp [decision, tokenIn, Named.get?, Named.get?_append, Entry.optionalText,
    Entry.get?_optionalMember]

theorem keepable_dispatch (r : SinkRecord) : (dispatch r).Keepable := by
  apply keepable_of_get? rfl
  simp [Named.get?, Entry.get?_optionalMember]

theorem tokenIn_dispatch (r : SinkRecord) : tokenIn (dispatch r).metadata = none := by
  simp [dispatch, tokenIn, Named.get?, Entry.get?_optionalMember]

theorem keepable_transport (c : TransportCheck) : (transport c).Keepable := by
  apply keepable_of_get? rfl
  simp [Entry.get?_optionalMember]

theorem tokenIn_transport (c : TransportCheck) : tokenIn (transport c).metadata = none := by
  simp [transport, tokenIn, Entry.get?_optionalMember]

theorem keepable_authority {execution action token : String} {severity : Severity}
    {more : Named (Json Text.Wide)} (h : ∀ v, more.get? "errorMessage" = some v → ∃ s, v = .str s) :
    (authority execution action severity token more).Keepable := by
  intro ms hms v hv
  cases hms
  rw [Named.get?, if_neg (by decide)] at hv
  exact h v hv

theorem keepable_minted (execution : String) (k : Token) : (minted execution k).Keepable :=
  keepable_authority (by simp [Named.get?])

theorem keepable_delegated (execution parent : String) (k : Token) :
    (delegated execution parent k).Keepable :=
  keepable_authority (by simp [Named.get?])

theorem keepable_refused (execution parent : String) (r : Refusal) :
    (refused execution parent r).Keepable :=
  keepable_authority (by simp [Named.get?])

theorem keepable_revoked (execution id : String) (changed : Bool) :
    (revoked execution id changed).Keepable :=
  keepable_authority (by simp [Named.get?])

theorem keepable_saved (execution : String) (count : Nat) : (saved execution count).Keepable := by
  apply keepable_of_get? rfl
  simp [Named.get?]

theorem keepable_restored (execution : String) (held : Revalidation) :
    (restored execution held).Keepable := by
  apply keepable_of_get? rfl
  simp [Named.get?]

end Note

namespace Session

inductive Operation where
  | mediate (r : Request) (now : Reading)
  | preDispatch (callId : String) (path : CallPath) (redacted : Option Bool)
  | guardTransport (callId : String) (redacted : Option Bool)
  | mint (clock : Clock) (ids : IdSource) (r : MintRequest)
  | delegate (clock : Clock) (ids : IdSource) (parent : String) (r : DelegationRequest)
  | revoke (id : String)
  | suspend
  | resume (execution : String) (held : List String) (now : Reading)

namespace Operation

def Result : Operation → Type
  | .mediate .. => Evaluation
  | .preDispatch .. => SinkRecord
  | .guardTransport .. => Bool
  | .mint .. => Token
  | .delegate .. => Except Refusal Token
  | .revoke _ => Bool
  | .suspend => String
  | .resume .. => Revalidation

def heading (execution : String) : (op : Operation) → op.Result → Heading
  | .mediate r _, (e : Evaluation) =>
      let (action, severity) := match e.decision with
        | .allow => ("allow", Severity.info)
        | .requireConfirmation => ("require_confirmation", .warning)
        | .requireDraft => ("require_draft", .warning)
        | .deny d =>
            ("deny", if d.reason = .budgetExceeded ∨ d.reason = .evaluationFault then .critical
              else .alert)
      ⟨.decision, action, severity, execution, r.callId, none⟩
  | .preDispatch callId .., (r : SinkRecord) =>
      if r.allowed then ⟨.sink, "pre_dispatch_allow", .info, execution, callId, none⟩
      else ⟨.sink, "pre_dispatch_deny", .alert, execution, callId, none⟩
  | .guardTransport callId _, (passed : Bool) =>
      if passed then ⟨.sink, "transport_passed", .info, execution, callId, none⟩
      else ⟨.sink, "transport_blocked", .alert, execution, callId, none⟩
  | .mint .., (k : Token) => ⟨.authority, "token_minted", .info, execution, none, k.id⟩
  | .delegate _ _ parent _, (granted : Except Refusal Token) =>
      match granted with
      | .ok k => ⟨.authority, "token_delegated", .info, execution, none, k.id⟩
      | .error _ => ⟨.authority, "delegation_refused", .warning, execution, none, parent⟩
  | .revoke id, (changed : Bool) =>
      if changed then ⟨.authority, "token_revoked", .info, execution, none, id⟩
      else ⟨.authority, "token_already_revoked", .info, execution, none, id⟩
  | .suspend, _ => ⟨.restore, "snapshot_saved", .info, execution, none, none⟩
  | .resume resumed .., (held : Revalidation) =>
      if held.stripped = [] then ⟨.restore, "execution_restored", .info, resumed, none, none⟩
      else ⟨.restore, "execution_restored", .warning, resumed, none, none⟩

end Operation

def settle {α : Type} (s : Session) :
    Except SessionFault (α × Session) → Except SessionFault α × Session
  | .error f => (.error f, s)
  | .ok (a, s') => (.ok a, s')

def perform (s : Session) : (op : Operation) → Except SessionFault op.Result × Session
  | .mediate r now => s.settle (s.mediate r now)
  | .preDispatch callId path redacted => s.settle (s.preDispatch callId path redacted)
  | .guardTransport callId redacted => s.settle (s.guardTransport callId redacted)
  | .mint clock ids r => s.settle (s.mint clock ids r).1
  | .delegate clock ids parent r => s.settle (s.delegate clock ids parent r).1
  | .revoke id => s.settle (s.revoke id)
  | .suspend => s.suspend
  | .resume execution held now => s.settle (s.resume execution held now)

def effect (s : Session) : (op : Operation) → Except SessionFault (op.Result × Note) × Session
  | .mediate r now =>
      match s.current.evaluate (s.effective r) now with
      | .error f => (.error (.evaluation f), s)
      | .ok e => (.ok (e, .decision e), s)
  | .preDispatch callId path redacted =>
      let record := SinkRequest.record ⟨s.current.id, callId, path, redacted⟩
      (.ok (record, .dispatch record), s)
  | .guardTransport callId redacted =>
      let check : TransportCheck := ⟨s.current.id, callId, redacted⟩
      (.ok (check.passes, .transport check), s)
  | .mint clock ids r =>
      match (s.current.table.mint clock ids r).1 with
      | .error f => (.error (.token f), s)
      | .ok (k, table) => (.ok (k, .minted s.current.id k), s.setTable table)
  | .delegate clock ids parent r =>
      match (s.current.table.delegate clock ids parent r).1 with
      | .error f => (.error (.token f), s)
      | .ok (.error refusal) => (.ok (.error refusal, .refused s.current.id parent refusal), s)
      | .ok (.ok (k, table)) => (.ok (.ok k, .delegated s.current.id parent k), s.setTable table)
  | .revoke id =>
      match s.current.table.revoke id with
      | .error f => (.error (.token f), s)
      | .ok (changed, table) =>
          (.ok (changed, .revoked s.current.id id changed), s.setTable table)
  | .suspend =>
      let text := Snapshot.write s.current.table
      let (saved, archive) := Archive.save s.archive s.current.id text
      match saved with
      | .error f => (.error (.archive f), { s with archive })
      | .ok () =>
          (.ok (text, .saved s.current.id s.current.table.toList.length), { s with archive })
  | .resume execution held now =>
      match Archive.load s.archive execution with
      | .error f => (.error (.archive f), s)
      | .ok none => (.error (.noSnapshot execution), s)
      | .ok (some text) =>
          match Execution.restore execution s.policy text.encoded held now with
          | .error f => (.error f, s)
          | .ok (standing, current) =>
              (.ok (standing, .restored execution standing), { s with current })

def logged (s : Session) (n : Note) : Session :=
  { s with journal := (s.journal.log n).2 }

variable {s s' : Session} {op : Operation} {es : List Entry} {n : Note}

theorem effect_journal (s : Session) (journal : Journal) (op : Operation) :
    effect { s with journal } op =
      ((s.effect op).1, { (s.effect op).2 with journal }) := by
  cases op with
  | mediate request now =>
      have hsame : effective { s with journal } request = s.effective request := rfl
      simp only [effect, hsame]
      split <;> rfl
  | preDispatch callId path redacted => rfl
  | guardTransport callId redacted => rfl
  | mint clock ids request =>
      simp only [effect]
      split <;> rfl
  | delegate clock ids parent request =>
      simp only [effect]
      split <;> rfl
  | revoke id =>
      simp only [effect]
      split <;> rfl
  | suspend =>
      simp only [effect]
      split <;> rfl
  | resume execution held now =>
      simp only [effect]
      split
      · rfl
      · rfl
      · split <;> rfl

theorem effect_keeps_journal (s : Session) (op : Operation) :
    (s.effect op).2.journal = s.journal :=
  congrArg (fun x => x.2.journal) (effect_journal s s.journal op)

theorem log_of_memory (h : s.journal.store = .memory es) (hn : n.Keepable) :
    s.journal.log n =
      if n.severity.rank < s.journal.floor.rank then (.ok false, s.journal)
      else (.ok true, { s.journal with
        store := .memory (es ++ [{ n.kept s.journal.now with id := s.journal.ids.draw.1 }])
        ids := s.journal.ids.draw.2 }) := by
  have hclean := hn.sanitized s.journal.ids.draw.1 s.journal.now
  unfold Journal.log
  split
  · rfl
  · rw [Note.entry] at hclean
    simp only [h, Store.append, hclean]
    rfl

theorem log_returns (h : s.journal.store = .memory es) (hn : n.Keepable) :
    ∃ kept, s.journal.log n = (.ok kept, (s.logged n).journal) := by
  have hlog := log_of_memory h hn
  split at hlog
  · exact ⟨false, by rw [logged, hlog]⟩
  · exact ⟨true, by rw [logged, hlog]⟩

theorem note_of_memory (h : s.journal.store = .memory es) (hn : n.Keepable) :
    s.note n = .ok (s.logged n) := by
  obtain ⟨kept, hlog⟩ := log_returns h hn
  exact note_ok.2 ⟨kept, _, hlog, rfl⟩

theorem note_congr (s : Session) (n : Note) (current : Execution) :
    note { s with current } n = (s.note n).map fun s' => { s' with current } := by
  simp only [note]
  obtain ⟨r, journal⟩ := s.journal.log n
  cases r <;> rfl

theorem perform_noted (s : Session) (op : Operation) : s.perform op =
    match s.effect op with
    | (.error f, s') => (.error f, s')
    | (.ok (r, n), s') =>
        match s'.note n with
        | .error f => (.error f, { s with archive := s'.archive })
        | .ok s' => (.ok r, s') := by
  cases op with
  | mediate request now =>
      simp only [perform, mediate, effect]
      cases s.current.evaluate (s.effective request) now with
      | error f => rfl
      | ok e =>
          rw [ok_mapError]
          simp only [bind, Except.bind]
          cases s.note (.decision e) <;> rfl
  | preDispatch callId path redacted =>
      simp only [perform, preDispatch, effect]
      cases s.note (.dispatch (SinkRequest.record ⟨s.current.id, callId, path, redacted⟩)) <;> rfl
  | guardTransport callId redacted =>
      simp only [perform, guardTransport, effect]
      cases s.note (.transport ⟨s.current.id, callId, redacted⟩) <;> rfl
  | mint clock ids request =>
      simp only [perform, mint, effect]
      obtain ⟨minted, drawn⟩ := s.current.table.mint clock ids request
      cases minted with
      | error f => rfl
      | ok added =>
          obtain ⟨k, table⟩ := added
          simp only
          cases (s.setTable table).note (.minted s.current.id k) <;> rfl
  | delegate clock ids parent request =>
      simp only [perform, delegate, effect]
      obtain ⟨granted, drawn⟩ := s.current.table.delegate clock ids parent request
      cases granted with
      | error f => rfl
      | ok granted =>
          cases granted with
          | error refusal =>
              simp only
              cases s.note (.refused s.current.id parent refusal) <;> rfl
          | ok added =>
              obtain ⟨k, table⟩ := added
              simp only
              cases (s.setTable table).note (.delegated s.current.id parent k) <;> rfl
  | revoke id =>
      simp only [perform, revoke, effect]
      cases s.current.table.revoke id with
      | error f => rfl
      | ok result =>
          obtain ⟨changed, table⟩ := result
          simp only
          cases (s.setTable table).note (.revoked s.current.id id changed) <;> rfl
  | suspend =>
      simp only [perform, suspend, writeSnapshot, effect]
      obtain ⟨saved, archive⟩ :=
        Archive.save s.archive s.current.id (Snapshot.write s.current.table)
      cases saved with
      | error f => rfl
      | ok u =>
          simp only [ok_mapError]
          cases note { s with archive } (.saved s.current.id s.current.table.toList.length) <;> rfl
  | resume execution held now =>
      simp only [perform, resume, effect]
      cases Archive.load s.archive execution with
      | error f => rfl
      | ok loaded =>
          cases loaded with
          | none => rfl
          | some text =>
              cases hrestore : Execution.restore execution s.policy text.encoded held now with
              | error f => simp only [ok_mapError, bind, Except.bind, hrestore, settle]
              | ok restored =>
                  obtain ⟨standing, current⟩ := restored
                  simp only [ok_mapError, bind, Except.bind, hrestore, note_congr]
                  cases s.note (.restored execution standing) <;> rfl

theorem severity_reason (r : Reason) : r.severity =
    if r = .budgetExceeded ∨ r = .evaluationFault then .critical else .alert := by
  cases r <;> rfl

theorem heading_decision (x : Execution) (request : Request) (now : Reading) (d : Decision)
    (witness : Option Witness) : (Note.decision ⟨d, witness, x.record request d⟩).heading =
      Operation.heading x.id (.mediate request now) ⟨d, witness, x.record request d⟩ := by
  rw [Note.heading, Note.tokenIn_decision]
  cases d with
  | allow => rfl
  | requireConfirmation => rfl
  | requireDraft => rfl
  | deny d =>
      have hseverity := severity_reason d.reason
      simp only [Operation.heading, ← hseverity]
      rfl

theorem heading_dispatch (execution callId : String) (path : CallPath) (redacted : Option Bool) :
    (Note.dispatch (SinkRequest.record ⟨execution, callId, path, redacted⟩)).heading =
      Operation.heading execution (.preDispatch callId path redacted)
        (SinkRequest.record ⟨execution, callId, path, redacted⟩) := by
  rw [Note.heading, Note.tokenIn_dispatch]
  match redacted with
  | none | some false | some true => rfl

theorem heading_transport (execution callId : String) (redacted : Option Bool) :
    (Note.transport ⟨execution, callId, redacted⟩).heading =
      Operation.heading execution (.guardTransport callId redacted)
        (TransportCheck.passes ⟨execution, callId, redacted⟩) := by
  rw [Note.heading, Note.tokenIn_transport]
  match redacted with
  | none | some false | some true => rfl

theorem heading_restored (execution current : String) (held : List String) (now : Reading)
    (standing : Revalidation) : (Note.restored execution standing).heading =
      Operation.heading current (.resume execution held now) standing := by
  obtain ⟨effective, stripped⟩ := standing
  cases stripped <;> rfl

theorem effect_note {r : op.Result} (h : s.effect op = (.ok (r, n), s')) :
    n.Keepable ∧ n.heading = op.heading s.current.id r := by
  cases op with
  | mediate request now =>
      simp only [effect] at h
      split at h
      · cases h
      · rename_i e he
        cases h
        have hreport := (Execution.evaluate_ok.1 he).2
        refine ⟨Note.keepable_decision _, ?_⟩
        rw [← hreport]
        exact heading_decision _ _ now _ _
  | preDispatch callId path redacted =>
      cases h
      exact ⟨Note.keepable_dispatch _, heading_dispatch _ _ _ _⟩
  | guardTransport callId redacted =>
      cases h
      exact ⟨Note.keepable_transport _, heading_transport _ _ _⟩
  | mint clock ids request =>
      simp only [effect] at h
      split at h <;> cases h
      exact ⟨Note.keepable_minted _ _, rfl⟩
  | delegate clock ids parent request =>
      simp only [effect] at h
      split at h <;> cases h
      · exact ⟨Note.keepable_refused _ _ _, rfl⟩
      · exact ⟨Note.keepable_delegated _ _ _, rfl⟩
  | revoke id =>
      simp only [effect] at h
      split at h <;> cases h
      refine ⟨Note.keepable_revoked _ _ _, ?_⟩
      cases r <;> rfl
  | suspend =>
      simp only [effect] at h
      generalize Snapshot.write s.current.table = text at h
      generalize Archive.save s.archive s.current.id text = done at h
      obtain ⟨saved, archive⟩ := done
      cases saved with
      | error f => cases h
      | ok u =>
          cases h
          exact ⟨Note.keepable_saved _ _, rfl⟩
  | resume execution held now =>
      simp only [effect] at h
      split at h
      · cases h
      · cases h
      · split at h <;> cases h
        exact ⟨Note.keepable_restored _ _, heading_restored _ _ _ _ _⟩

theorem perform_eq (h : s.journal.store = .memory es) (op : Operation) : s.perform op =
    match s.effect op with
    | (.error f, s') => (.error f, s')
    | (.ok (r, n), s') => (.ok r, s'.logged n) := by
  rw [perform_noted]
  have hjournal := effect_keeps_journal s op
  cases heffect : s.effect op with
  | mk outcome s' =>
      cases outcome with
      | error f => rfl
      | ok outcome =>
          obtain ⟨r, n⟩ := outcome
          rw [heffect] at hjournal
          have hmemory : s'.journal.store = .memory es := by
            rw [← h]
            exact congrArg Journal.store hjournal
          simp only [note_of_memory hmemory (effect_note heffect).1]

end Session

end ToolGate
