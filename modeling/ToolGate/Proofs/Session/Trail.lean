import ToolGate.Proofs.Session.Noting

namespace ToolGate.Session

variable {s : Session} {n : Note} {es : List Entry} {level : Severity}

structure Turn where
  host : Execution → Execution
  time : Instant
  operation : Operation

structure Event where
  execution : String
  operation : Operation
  result : Except SessionFault operation.Result

def Event.heading? (e : Event) : Option Heading :=
  match e.result with
  | .ok r => some (e.operation.heading e.execution r)
  | .error _ => none

def prepare (s : Session) (t : Turn) : Session :=
  { s with current := t.host s.current, journal := { s.journal with now := t.time } }

def take (s : Session) (t : Turn) : Event × Session :=
  let s := s.prepare t
  let (result, s') := s.perform t.operation
  (⟨s.current.id, t.operation, result⟩, s')

def play (s : Session) : List Turn → List Event × Session
  | [] => ([], s)
  | t :: ts =>
      let (e, s) := s.take t
      let (es, s) := s.play ts
      (e :: es, s)

/-- What is to come of the turns, with the journal left out: the events, and of each what is to be
kept. -/
def course (s : Session) : List Turn → List (Event × Option Entry)
  | [] => []
  | t :: ts =>
      let (outcome, s') := (s.prepare t).effect t.operation
      (⟨(s.prepare t).current.id, t.operation, outcome.map Prod.fst⟩,
        outcome.toOption.map fun x => x.2.kept t.time) :: s'.course ts

def keeping (level : Severity) (es : List Entry) : List Entry :=
  es.filter (level.rank ≤ ·.severity.rank)

theorem logged_of_memory (h : s.journal.store = .memory es) (hn : n.Keepable) :
    ∃ more, (s.logged n).journal.store = .memory (es ++ more) ∧
      (s.logged n).journal.floor = s.journal.floor ∧
      more.map Entry.unnamed = keeping s.journal.floor [n.kept s.journal.now] := by
  have hseverity : (n.kept s.journal.now).severity = n.severity := rfl
  rw [logged, log_of_memory h hn]
  split
  case isTrue hlow =>
    refine ⟨[], by simpa using h, rfl, ?_⟩
    simp [keeping, hseverity, hlow]
  case isFalse hlow =>
    refine ⟨[_], rfl, rfl, ?_⟩
    rw [Nat.not_lt] at hlow
    simp only [keeping, List.filter_cons, hseverity, hlow, List.filter_nil]
    rfl

theorem course_cons (s : Session) (t : Turn) (ts : List Turn) : s.course (t :: ts) =
    (⟨(s.prepare t).current.id, t.operation,
        ((s.prepare t).effect t.operation).1.map Prod.fst⟩,
      ((s.prepare t).effect t.operation).1.toOption.map fun x => x.2.kept t.time) ::
        ((s.prepare t).effect t.operation).2.course ts :=
  rfl

theorem course_journal (s : Session) (journal : Journal) (ts : List Turn) :
    course { s with journal } ts = s.course ts := by
  induction ts generalizing s journal with
  | nil => rfl
  | cons t ts ih =>
      have hprepare : prepare { s with journal } t =
        { s.prepare t with journal := { journal with now := t.time } } := rfl
      rw [course_cons, course_cons, hprepare, effect_journal, ih]

theorem take_eq (s : Session) (t : Turn) : s.take t =
    (⟨(s.prepare t).current.id, t.operation, ((s.prepare t).perform t.operation).1⟩,
      ((s.prepare t).perform t.operation).2) :=
  rfl

theorem take_of_memory (h : s.journal.store = .memory es) (t : Turn) (ts : List Turn) :
    ∃ p more, s.course (t :: ts) = p :: (s.take t).2.course ts ∧ (s.take t).1 = p.1 ∧
      (s.take t).2.journal.store = .memory (es ++ more) ∧
      (s.take t).2.journal.floor = s.journal.floor ∧
      more.map Entry.unnamed = keeping s.journal.floor p.2.toList := by
  have hmemory : (s.prepare t).journal.store = .memory es := h
  have hperform := perform_eq hmemory t.operation
  have hjournal := effect_keeps_journal (s.prepare t) t.operation
  rw [course_cons, take_eq, hperform]
  cases heffect : (s.prepare t).effect t.operation with
  | mk outcome s' =>
      rw [heffect] at hjournal
      have hstore : s'.journal.store = .memory es := by rw [hjournal]; exact hmemory
      have hfloor : s'.journal.floor = s.journal.floor := by rw [hjournal]; rfl
      have hnow : s'.journal.now = t.time := by rw [hjournal]; rfl
      cases outcome with
      | error f =>
          exact ⟨_, [], rfl, rfl, hstore.trans (by rw [List.append_nil]), hfloor, rfl⟩
      | ok outcome =>
          obtain ⟨r, n⟩ := outcome
          have hkeepable := (effect_note heffect).1
          obtain ⟨more, hlogged, hfloor', hmore⟩ := logged_of_memory hstore hkeepable
          rw [hfloor, hnow] at hmore
          have hcourse : (s'.logged n).course ts = s'.course ts := course_journal s' _ ts
          rw [← hcourse]
          exact ⟨_, more, rfl, rfl, hlogged, hfloor'.trans hfloor, hmore⟩

theorem play_of_memory (h : s.journal.store = .memory es) (ts : List Turn) :
    ∃ more, (s.play ts).1 = (s.course ts).map Prod.fst ∧
      (s.play ts).2.journal.store = .memory (es ++ more) ∧
      more.map Entry.unnamed =
        keeping s.journal.floor ((s.course ts).filterMap Prod.snd) := by
  induction ts generalizing s es with
  | nil => exact ⟨[], rfl, h.trans (by rw [List.append_nil]), rfl⟩
  | cons t ts ih =>
      obtain ⟨p, first, hcourse, hevent, hstore, hfloor, hfirst⟩ := take_of_memory h t ts
      obtain ⟨rest, hevents, hstores, hrest⟩ := ih hstore
      refine ⟨first ++ rest, ?_, ?_, ?_⟩
      · rw [hcourse, List.map_cons, ← hevent, ← hevents]
        rfl
      · rw [← List.append_assoc]
        exact hstores
      · rw [List.map_append, hfirst, hrest, hfloor, hcourse, keeping, keeping, keeping,
          ← List.filter_append]
        cases hp : p.2 <;> simp [hp]

theorem heading_of_mem_course {ts : List Turn} {p : Event × Option Entry}
    (h : p ∈ s.course ts) : p.2.map Entry.heading = p.1.heading? := by
  induction ts generalizing s with
  | nil => cases h
  | cons t ts ih =>
      rw [course_cons] at h
      obtain rfl | h := List.mem_cons.1 h
      · cases heffect : (s.prepare t).effect t.operation with
        | mk outcome s' =>
            cases outcome with
            | error f => rfl
            | ok outcome =>
                obtain ⟨r, n⟩ := outcome
                obtain ⟨hkeepable, hheading⟩ := effect_note heffect
                exact congrArg some ((hkeepable.heading_kept t.time).trans hheading)
      · exact ih h

theorem play_logged (h : s.journal.store = .memory []) (hn : n.Keepable) (ts : List Turn) :
    ∃ es, ((s.logged n).play ts).1 = (s.course ts).map Prod.fst ∧
      ((s.logged n).play ts).2.journal.store = .memory es ∧
      es.map Entry.unnamed = keeping s.journal.floor
        (n.kept s.journal.now :: (s.course ts).filterMap Prod.snd) := by
  obtain ⟨first, hstore, hfloor, hfirst⟩ := logged_of_memory h hn
  obtain ⟨rest, hevents, hstores, hrest⟩ := play_of_memory hstore ts
  have hcourse : (s.logged n).course ts = s.course ts := course_journal s _ ts
  rw [hcourse] at hevents hrest
  refine ⟨first ++ rest, hevents, hstores, ?_⟩
  rw [List.map_append, hfirst, hrest, hfloor, keeping, keeping, ← List.filter_append]
  rfl

theorem map_heading_keeping (level : Severity) (es : List Entry) :
    (keeping level es).map Entry.heading =
      (es.map Entry.heading).filter (level.rank ≤ ·.severity.rank) := by
  rw [List.filter_map]
  rfl

theorem map_unnamed_keeping (level : Severity) (es : List Entry) :
    (keeping level es).map Entry.unnamed = keeping level (es.map Entry.unnamed) := by
  rw [keeping, keeping, List.filter_map]
  rfl

theorem keeping_debug (es : List Entry) : keeping .debug es = es := by
  simp [keeping, Severity.rank]

theorem heading_course (s : Session) (ts : List Turn) :
    ((s.course ts).filterMap Prod.snd).map Entry.heading =
      ((s.course ts).map Prod.fst).filterMap Event.heading? := by
  rw [List.map_filterMap, List.filterMap_map]
  exact List.filterMap_congr fun p hp => heading_of_mem_course hp

theorem start_of_memory {policies archive : Folder} {name execution : String}
    {subject : Option String} {j : Journal} (hj : j.store = .memory es) :
    start policies name archive j subject execution = .ok s ↔
      ∃ text p, policies.read name = .ok text ∧ Policy.parse text = .ok p ∧
        logged ⟨p, j, archive, subject, .start execution p .empty⟩
          (.policyLoaded p (policies.path ++ "/" ++ name)) = s := by
  have hlog (p : Policy) := log_returns (s := ⟨p, j, archive, subject, .start execution p .empty⟩)
    hj (Note.keepable_policyLoaded p (policies.path ++ "/" ++ name))
  simp only [start, bind_ok, mapError_ok]
  constructor
  · rintro ⟨text, htext, p, hp, h⟩
    obtain ⟨kept, hlog⟩ := hlog p
    rw [hlog] at h
    cases h
    exact ⟨text, p, htext, hp, rfl⟩
  · rintro ⟨text, p, htext, hp, rfl⟩
    obtain ⟨kept, hlog⟩ := hlog p
    refine ⟨text, htext, p, hp, ?_⟩
    rw [hlog]
    rfl

theorem trail_of_memory {policies archive : Folder} {name execution : String}
    {subject : Option String} {now : Instant} {ids : IdSource}
    (h : start policies name archive ⟨.memory [], level, now, ids⟩ subject execution = .ok s)
    (turns : List Turn) :
    ∃ es, (s.play turns).2.journal.store = .memory es ∧
      es.map Entry.heading =
        (⟨.policy, "policy_loaded", .info, none, none, none⟩ ::
          (s.play turns).1.filterMap Event.heading?).filter (level.rank ≤ ·.severity.rank) ∧
      ∀ ids₀, ∃ s₀ es₀,
        start policies name archive ⟨.memory [], .debug, now, ids₀⟩ subject execution = .ok s₀ ∧
        (s₀.play turns).1 = (s.play turns).1 ∧
        (s₀.play turns).2.journal.store = .memory es₀ ∧
        es.map Entry.unnamed =
          (es₀.filter (level.rank ≤ ·.severity.rank)).map Entry.unnamed := by
  obtain ⟨text, p, htext, hp, rfl⟩ := (start_of_memory rfl).1 h
  have hkeepable := Note.keepable_policyLoaded p (policies.path ++ "/" ++ name)
  obtain ⟨es, hevents, hstore, hes⟩ := play_logged
    (s := ⟨p, ⟨.memory [], level, now, ids⟩, archive, subject, .start execution p .empty⟩)
    rfl hkeepable turns
  refine ⟨es, hstore, ?_, fun ids₀ => ?_⟩
  · have hheading : es.map Entry.heading = (es.map Entry.unnamed).map Entry.heading := by
      rw [List.map_map]
      rfl
    rw [hheading, hes, map_heading_keeping, List.map_cons, heading_course, hevents,
      hkeepable.heading_kept]
    rfl
  · obtain ⟨es₀, hevents₀, hstore₀, hes₀⟩ := play_logged
      (s := ⟨p, ⟨.memory [], .debug, now, ids₀⟩, archive, subject, .start execution p .empty⟩)
      rfl hkeepable turns
    have hcourse := course_journal
      ⟨p, ⟨.memory [], level, now, ids⟩, archive, subject, .start execution p .empty⟩
      ⟨.memory [], .debug, now, ids₀⟩ turns
    simp only at hcourse
    rw [hcourse] at hevents₀ hes₀
    rw [keeping_debug] at hes₀
    refine ⟨_, es₀, (start_of_memory rfl).2 ⟨text, p, htext, hp, rfl⟩,
      hevents₀.trans hevents.symm, hstore₀, ?_⟩
    exact hes.trans ((map_unnamed_keeping level es₀).trans (congrArg _ hes₀)).symm

namespace Trail

def document : Json :=
  .obj [("schema_version", .num 1), ("policy_name", .str "mail"), ("default_action", .str "Deny"),
    ("strict_mode", .bool false),
    ("budgets", .obj [("max_values", .num 1), ("max_parents_per_value", .num 1),
      ("max_closure_steps", .num 1), ("max_witness_depth", .num 1)]),
    ("tools", .arr [])]

def policy : Policy := ⟨"mail", false, false, ⟨1, 1, 1, 1⟩, []⟩

def policies : Folder := .holding "policies" [("mail.json", document.text)]

def ids : IdSource := ⟨fun n => toString n, 0⟩

def begun : Journal := ⟨.memory [], .warning, .at 0, ids⟩

def opened : Session :=
  logged ⟨policy, begun, .new "snapshots", some "agent", .start "exec-1" policy .empty⟩
    (.policyLoaded policy (policies.path ++ "/" ++ "mail.json"))

def turns : List Turn :=
  [.mediate ⟨"c1", "send", [], [], [], none, none, none⟩ (.ok 0),
    .preDispatch "c2" .planner (some true), .revoke "t",
    .mint (fun _ => .ok 0) ids ⟨some "t", "host", "agent", ["mail.send"], ⟨none, none⟩⟩,
    .delegate (fun _ => .ok 0) ids "t" ⟨none, ["mail.read"], ⟨none, none⟩, none, none⟩,
    .suspend, .guardTransport "c3" none].map (⟨id, .at 0, ·⟩)

theorem readable_document : document.Readable := by
  have hone : Json.Readable (.num 1 : Json) := Json.readable_nat (by decide)
  refine .obj (by decide) ?_
  intro m hm
  simp only [List.mem_cons, List.not_mem_nil, or_false] at hm
  obtain rfl | rfl | rfl | rfl | rfl | rfl := hm
  · exact hone
  · exact .str _
  · exact .str _
  · exact .bool _
  · exact .obj (by decide) (by simp [hone])
  · exact .arr (by simp)

theorem parse_document : Policy.parse document.text = .ok policy := by
  rw [Policy.parse, readable_document.parse?_text]
  decide +kernel

theorem read_policies : policies.read "mail.json" = .ok document.text := by
  have hcheck : policies.check "mail.json" = .ok () := by decide +kernel
  have hget : policies.files.get? "mail.json" = some document.text := if_pos rfl
  simp only [Folder.read, hcheck, hget, bind_ok]
  exact ⟨(), trivial, rfl⟩

theorem start_opened :
    start policies "mail.json" (.new "snapshots") begun (some "agent") "exec-1" = .ok opened :=
  (start_of_memory rfl).2 ⟨document.text, policy, read_policies, parse_document, rfl⟩

end Trail

open Trail in
theorem trail_of_memory_warning : ∃ s es,
    start policies "mail.json" (.new "snapshots") begun (some "agent") "exec-1" = .ok s ∧
    (s.play turns).2.journal.store = .memory es ∧
    es.map Entry.heading =
      [⟨.decision, "deny", .alert, "exec-1", "c1", none⟩,
        ⟨.authority, "delegation_refused", .warning, "exec-1", none, "t"⟩,
        ⟨.sink, "transport_blocked", .alert, "exec-1", "c3", none⟩] := by
  obtain ⟨es, hstore, hheadings, -⟩ := trail_of_memory start_opened turns
  have hturns : (opened.play turns).1.filterMap Event.heading? =
      [⟨.decision, "deny", .alert, "exec-1", "c1", none⟩,
        ⟨.sink, "pre_dispatch_allow", .info, "exec-1", "c2", none⟩,
        ⟨.authority, "token_minted", .info, "exec-1", none, "t"⟩,
        ⟨.authority, "delegation_refused", .warning, "exec-1", none, "t"⟩,
        ⟨.restore, "snapshot_saved", .info, "exec-1", none, none⟩,
        ⟨.sink, "transport_blocked", .alert, "exec-1", "c3", none⟩] := by
    decide +kernel
  rw [hturns] at hheadings
  exact ⟨opened, es, start_opened, hstore, hheadings⟩

end ToolGate.Session
