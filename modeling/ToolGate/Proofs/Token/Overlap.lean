import Mathlib.Data.List.Infix
import ToolGate.Proofs.Token.Saving

namespace ToolGate.Archive

variable {saves : List (String × Text.Wide)} {execution : String} {schedule past : List Nat}
  {s : Traffic} {k j : Nat} {text : Text.Wide} {content : String} {d : Disk}
  {stage : Stage}

def underWay (saves : List (String × Text.Wide)) (execution : String) (past : List Nat) : List Nat :=
  (List.range saves.length).filter fun k =>
    (saves[k]?.any (·.1 == execution)) && (past.count k == 1 || past.count k == 2)

def Apart (saves : List (String × Text.Wide)) (execution : String) (schedule : List Nat) : Prop :=
  ∀ past ∈ schedule.inits, (underWay saves execution past).length ≤ 1

instance : Decidable (Apart saves execution schedule) :=
  inferInstanceAs (Decidable (∀ past ∈ schedule.inits, _))

theorem mem_underWay : k ∈ underWay saves execution past ↔
    (∃ text, saves[k]? = some (execution, text)) ∧ (past.count k = 1 ∨ past.count k = 2) := by
  simp only [underWay, List.mem_filter, List.mem_range, Bool.and_eq_true, Bool.or_eq_true,
    beq_iff_eq, Option.any_eq_true]
  constructor
  · rintro ⟨-, ⟨job, hjob, rfl⟩, hcount⟩
    exact ⟨⟨job.2, hjob⟩, hcount⟩
  · rintro ⟨⟨text, hjob⟩, hcount⟩
    obtain ⟨hk, -⟩ := List.getElem?_eq_some_iff.1 hjob
    exact ⟨hk, ⟨_, hjob, rfl⟩, hcount⟩

theorem Apart.unique (h : Apart saves execution schedule) (hpast : past <+: schedule)
    (hj : j ∈ underWay saves execution past) (hk : k ∈ underWay saves execution past) : j = k := by
  have hlength := h past ((List.mem_inits _ _).2 hpast)
  generalize underWay saves execution past = under at hlength hj hk
  match under, hlength with
  | [], _ => cases hj
  | [i], _ => rw [List.mem_singleton.1 hj, List.mem_singleton.1 hk]

theorem Apart.isPrefix (h : Apart saves execution schedule) (hpast : past <+: schedule) :
    Apart saves execution past := fun before hbefore =>
  h before ((List.mem_inits _ _).2 (((List.mem_inits _ _).1 hbefore).trans hpast))

def Stage.taken? : Stage → Option Nat
  | .ready => some 0
  | .opened .. => some 1
  | .written _ => some 2
  | .ended _ => none

theorem Proceeds.taken {d' : Disk} {stage' : Stage}
    (h : Proceeds d execution content stage d' stage') {n : Nat} (hn : stage'.taken? = some n) :
    ∃ m, stage.taken? = some m ∧ n = m + 1 := by
  cases h with
  | refused => cases hn
  | opens => cases hn; exact ⟨0, rfl, rfl⟩
  | adds => cases hn; exact ⟨0, rfl, rfl⟩
  | writes => cases hn; exact ⟨1, rfl, rfl⟩
  | publishes => cases hn
  | loses => cases hn
  | rests => cases hn

theorem count_of_taken (path : String) {job : String × Text.Wide} {n : Nat}
    (hjob : saves[k]? = some job)
    (htaken : ((Traffic.run saves (.new path) schedule).stage k).taken? = some n) :
    schedule.count k = n := by
  induction schedule using List.reverseRecOn generalizing n with
  | nil => cases htaken; rfl
  | append_singleton past i ih =>
      rw [Traffic.run_concat] at htaken
      rw [List.count_append, List.count_singleton]
      cases hi : saves[i]? with
      | none =>
          rw [Traffic.step_of_none hi] at htaken
          have hne : i ≠ k := by
            rintro rfl
            rw [hi] at hjob
            cases hjob
          simp [ih htaken, hne]
      | some other =>
          rw [Traffic.step_eq hi, Traffic.stage_put] at htaken
          split at htaken
          · rename_i heq
            subst heq
            obtain ⟨m, hm, rfl⟩ := (proceeds _ _ _ _).taken htaken
            simp [ih hm]
          · rename_i hne
            simp [ih htaken, Ne.symm hne]

structure Ordered (saves : List (String × Text.Wide)) (execution : String) (s : Traffic) : Prop where
  opened : ∀ k text name file, saves[k]? = some (execution, text) → s.stage k = .opened name file →
    s.disk.entries.get? (execution ++ ending ++ temporaryEnding) = some file
  written : ∀ k text name, saves[k]? = some (execution, text) → s.stage k = .written name →
    ∃ file, s.disk.entries.get? (execution ++ ending ++ temporaryEnding) = some file ∧
      s.disk.text file = text.encoded
  kept : ∀ file, s.disk.entries.get? (execution ++ ending) = some file →
    ∃ k text, saves[k]? = some (execution, text) ∧ s.disk.text file = text.encoded ∧
      s.stage k = .ended (.ok ())
  bare : s.disk.entries.get? (execution ++ ending) = none →
    ∀ k text, saves[k]? = some (execution, text) → s.stage k ≠ .ended (.ok ())
  succeeds : ∀ k text answer, saves[k]? = some (execution, text) → s.stage k = .ended answer →
    Nameable execution → s.disk.folder.Fits (execution ++ ending ++ temporaryEnding) →
    answer = .ok ()

theorem Ordered.new (path : String) : Ordered saves execution (.new path) where
  opened _ _ _ _ _ h := by cases h
  written _ _ _ _ h := by cases h
  kept _ h := by cases h
  bare _ _ _ _ h := by cases h
  succeeds _ _ _ _ h := by cases h

theorem Proceeds.path {d' : Disk} {stage' : Stage}
    (h : Proceeds d execution content stage d' stage') :
    d'.path = d.path := by
  cases h with
  | refused hsame _ => rcases hsame with rfl | rfl <;> rfl
  | publishes hmove =>
      obtain ⟨_, -, rfl⟩ := Disk.rename_ok.1 hmove
      rfl
  | opens | adds | writes | loses | rests => rfl

theorem fits_congr {d' : Disk} {name : String} (h : d'.path = d.path) (hfits : d'.folder.Fits name) :
    d.folder.Fits name := by
  have hpath : d'.folder.path = d.folder.path := h
  rwa [Folder.Fits, hpath] at hfits

theorem Ordered.untouched (h : Ordered saves execution s) {d' : Disk} (hpath : d'.path = s.disk.path)
    (hd : Untouched execution s.disk d') {other : String × Text.Wide} (hk : saves[k]? = some other)
    (hother : other.1 ≠ execution) (stage' : Stage) :
    Ordered saves execution (s.put k (d', stage')) := by
  obtain ⟨hkept, hkeptText⟩ := hd _ (.inl rfl)
  obtain ⟨htemporary, htemporaryText⟩ := hd _ (.inr rfl)
  have hstage {j : Nat} {text : Text.Wide} (hj : saves[j]? = some (execution, text)) :
      (s.put k (d', stage')).stage j = s.stage j := by
    rw [Traffic.stage_put, if_neg]
    rintro rfl
    rw [hk] at hj
    cases hj
    exact hother rfl
  refine ⟨fun j text name file hj hopened => ?_, fun j text name hj hwritten => ?_,
    fun file hfile => ?_, fun hnone j text hj => ?_, fun j text answer hj hended hname hfits => ?_⟩
  · rw [hstage hj] at hopened
    exact htemporary.trans (h.opened j text name file hj hopened)
  · rw [hstage hj] at hwritten
    obtain ⟨file, hfile, htext⟩ := h.written j text name hj hwritten
    exact ⟨file, htemporary.trans hfile, (htemporaryText file hfile).trans htext⟩
  · have hbefore := hkept.symm.trans hfile
    obtain ⟨j, text, hj, htext, hended⟩ := h.kept file hbefore
    exact ⟨j, text, hj, (hkeptText file hbefore).trans htext, by rw [hstage hj]; exact hended⟩
  · rw [hstage hj]
    exact h.bare (hkept.symm.trans hnone) j text hj
  · rw [hstage hj] at hended
    exact h.succeeds j text answer hj hended hname (fits_congr hpath hfits)

def Lone (saves : List (String × Text.Wide)) (execution : String) (s : Traffic) (k : Nat) : Prop :=
  ∀ j text, j ≠ k → saves[j]? = some (execution, text) → (s.stage j).name? = none

structure Leaves (execution content : String) (d d' : Disk) (stage' : Stage) : Prop where
  path : d'.path = d.path
  opened : ∀ name file, stage' = .opened name file →
    d'.entries.get? (execution ++ ending ++ temporaryEnding) = some file
  written : ∀ name, stage' = .written name →
    ∃ file, d'.entries.get? (execution ++ ending ++ temporaryEnding) = some file ∧
      d'.text file = content
  kept : ∀ file, d'.entries.get? (execution ++ ending) = some file →
    (d.entries.get? (execution ++ ending) = some file ∧ d'.text file = d.text file) ∨
      (stage' = .ended (.ok ()) ∧ d'.text file = content)
  bare : d'.entries.get? (execution ++ ending) = none →
    d.entries.get? (execution ++ ending) = none ∧ stage' ≠ .ended (.ok ())
  succeeds : ∀ answer, stage' = .ended answer → Nameable execution →
    d.folder.Fits (execution ++ ending ++ temporaryEnding) → answer = .ok ()

theorem Ordered.put (h : Ordered saves execution s) (hk : saves[k]? = some (execution, text))
    (hlone : Lone saves execution s k) (hpending : ∀ answer, s.stage k ≠ .ended answer) {d' : Disk}
    {stage' : Stage} (hd : Leaves execution text.encoded s.disk d' stage') :
    Ordered saves execution (s.put k (d', stage')) := by
  refine ⟨fun j text' name file hj hopened => ?_, fun j text' name hj hwritten => ?_,
    fun file hfile => ?_, fun hnone j text' hj => ?_, fun j text' answer hj hended hname hfits => ?_⟩
  · rw [Traffic.stage_put] at hopened
    split at hopened
    · exact hd.opened name file hopened
    · rename_i hne
      have hidle := hlone j text' hne hj
      rw [hopened] at hidle
      cases hidle
  · rw [Traffic.stage_put] at hwritten
    split at hwritten
    · rename_i heq
      subst heq
      cases hk.symm.trans hj
      exact hd.written name hwritten
    · rename_i hne
      have hidle := hlone j text' hne hj
      rw [hwritten] at hidle
      cases hidle
  · rcases hd.kept file hfile with ⟨hbefore, htext⟩ | ⟨hended, htext⟩
    · obtain ⟨j, text', hj, htext', hended⟩ := h.kept file hbefore
      have hne : j ≠ k := by
        rintro rfl
        exact hpending _ hended
      exact ⟨j, text', hj, htext.trans htext', by rw [Traffic.stage_put, if_neg hne]; exact hended⟩
    · exact ⟨k, text, hk, htext, by rw [Traffic.stage_put, if_pos rfl]; exact hended⟩
  · obtain ⟨hbefore, hstage⟩ := hd.bare hnone
    rw [Traffic.stage_put]
    split
    · exact hstage
    · exact h.bare hbefore j text' hj
  · rw [Traffic.stage_put] at hended
    have hfits' := fits_congr hd.path hfits
    split at hended
    · exact hd.succeeds answer hended hname hfits'
    · exact h.succeeds j text' answer hj hended hname hfits'

theorem Proceeds.leaves {d' : Disk} {stage' : Stage}
    (h : Proceeds d execution content stage d' stage') (hd : d.Sound)
    (hname : ∀ name, stage.name? = some name → name = execution ++ ending)
    (hopened : ∀ name file, stage = .opened name file →
      d.entries.get? (execution ++ ending ++ temporaryEnding) = some file)
    (hwritten : ∀ name, stage = .written name →
      ∃ file, d.entries.get? (execution ++ ending ++ temporaryEnding) = some file ∧
        d.text file = content)
    (hpending : ∀ answer, stage ≠ .ended answer) : Leaves execution content d d' stage' := by
  have htwo : execution ++ ending ++ temporaryEnding ≠ execution ++ ending := temporary_ne
  -- the file that is kept is not the one that is written to
  have hother {file i : Nat}
      (hfile : d.entries.get? (execution ++ ending ++ temporaryEnding) = some file)
      (hi : d.entries.get? (execution ++ ending) = some i) : i ≠ file := by
    rintro rfl
    exact htwo (hd.distinct _ _ _ hfile hi)
  have hpath := h.path
  cases h with
  | @refused f d' hsame hrefused =>
      have hsame' : d'.entries = d.entries ∧ d'.text = d.text := by
        rcases hsame with rfl | rfl <;> exact ⟨rfl, rfl⟩
      obtain ⟨hentries, htext⟩ := hsame'
      refine ⟨hpath, nofun, nofun, fun i hi => .inl ⟨hentries ▸ hi, by rw [htext]⟩,
        fun hnone => ⟨hentries ▸ hnone, nofun⟩, fun answer _ hnameable hfits => ?_⟩
      exact (hrefused ⟨hnameable, hfits⟩).elim
  | @opens file _ hfile =>
      refine ⟨hpath, fun name i hi => ?_, nofun, fun i hi => .inl ⟨hi, ?_⟩,
        fun hnone => ⟨hnone, nofun⟩, nofun⟩
      · cases hi
        exact hfile
      · rw [Disk.text_write (hd.make.stored _ _ hfile), if_neg (hother hfile hi)]
        rfl
  | adds _ hnone =>
      have hget := Disk.get?_add d.make (execution ++ ending ++ temporaryEnding)
      refine ⟨hpath, fun name i hi => ?_, nofun, fun i hi => ?_, fun hbare => ?_, nofun⟩
      · cases hi
        rw [hget, if_pos rfl]
        rfl
      · rw [hget, if_neg htwo] at hi
        exact .inl ⟨hi, Disk.text_add (hd.stored _ _ hi)⟩
      · rw [hget, if_neg htwo] at hbare
        exact ⟨hbare, nofun⟩
  | @writes name file =>
      have hfile := hopened name file rfl
      have htext := Disk.text_write (hd.stored _ _ hfile) content
      refine ⟨hpath, nofun, fun _ _ => ⟨file, hfile, by rw [htext, if_pos rfl]⟩,
        fun i hi => .inl ⟨hi, by rw [htext, if_neg (hother hfile hi)]⟩,
        fun hnone => ⟨hnone, nofun⟩, nofun⟩
  | @publishes name d' hmove =>
      obtain rfl := hname name rfl
      obtain ⟨file, hfile, rfl⟩ := hwritten _ rfl
      have hkept : d'.entries.get? (execution ++ ending) = some file := by
        rw [hd.get?_rename hmove, if_pos rfl, hfile]
      refine ⟨hpath, nofun, nofun, fun i hi => ?_, fun hnone => ?_, fun answer hanswer _ _ => ?_⟩
      · cases hkept.symm.trans hi
        obtain ⟨_, -, rfl⟩ := Disk.rename_ok.1 hmove
        exact .inr ⟨rfl, rfl⟩
      · rw [hkept] at hnone
        cases hnone
      · cases hanswer
        rfl
  | @loses name hnone =>
      obtain rfl := hname name rfl
      obtain ⟨file, hfile, -⟩ := hwritten _ rfl
      rw [hnone] at hfile
      cases hfile
  | rests => exact (hpending _ rfl).elim

theorem Ordered.step (h : Ordered saves execution s) (hs : s.Sound saves)
    (hlone : ∀ text, saves[k]? = some (execution, text) → (∀ answer, s.stage k ≠ .ended answer) →
      Lone saves execution s k) : Ordered saves execution (s.step saves k) := by
  cases hk : saves[k]? with
  | none => rwa [Traffic.step_of_none hk]
  | some job =>
      have hnext := proceeds s.disk job.1 job.2.encoded (s.stage k)
      have hname : ∀ name, (s.stage k).name? = some name → name = job.1 ++ ending :=
        fun name => hs.named k job name hk
      rw [Traffic.step_eq hk]
      by_cases hsame : job.1 = execution
      · obtain ⟨execution, text⟩ := job
        obtain rfl : execution = _ := hsame
        by_cases hended : ∃ answer, s.stage k = .ended answer
        · obtain ⟨answer, hanswer⟩ := hended
          rwa [Traffic.put_ended hanswer]
        · have hpending : ∀ answer, s.stage k ≠ .ended answer := fun answer ha => hended ⟨answer, ha⟩
          refine h.put hk (hlone text hk hpending) hpending ?_
          exact hnext.leaves hs.disk hname (fun name file => h.opened k text name file hk)
            (fun name => h.written k text name hk) hpending
      · refine h.untouched hnext.path ?_ hk hsame _
        exact hnext.untouched hs.disk hname (fun name file => hs.opened k job name file hk) hsame

theorem mem_underWay_of_name {path : String} (name : String) (hk : saves[k]? = some (execution, text))
    (hname : ((Traffic.run saves (.new path) past).stage k).name? = some name) :
    k ∈ underWay saves execution past := by
  refine mem_underWay.2 ⟨⟨text, hk⟩, ?_⟩
  cases hstage : (Traffic.run saves (.new path) past).stage k with
  | opened _ _ => exact .inl (count_of_taken path hk (by rw [hstage]; rfl))
  | written _ => exact .inr (count_of_taken path hk (by rw [hstage]; rfl))
  | ready | ended _ =>
      rw [hstage] at hname
      cases hname

theorem lone_of_apart {path : String} (h : Apart saves execution (past ++ [k]))
    (hk : saves[k]? = some (execution, text))
    (hpending : ∀ answer, (Traffic.run saves (.new path) past).stage k ≠ .ended answer) :
    Lone saves execution (Traffic.run saves (.new path) past) k := by
  intro j text' hne hj
  by_contra hbusy
  obtain ⟨name, hname⟩ := Option.ne_none_iff_exists'.1 hbusy
  have hjin := mem_underWay_of_name name hj hname
  cases hstage : (Traffic.run saves (.new path) past).stage k with
  | ready =>
      -- the step that is taken is the first one of its save
      have hcount : past.count k = 0 := count_of_taken path hk (by rw [hstage]; rfl)
      have hkin : k ∈ underWay saves execution (past ++ [k]) :=
        mem_underWay.2 ⟨⟨text, hk⟩, .inl (by simp [hcount])⟩
      have hjin' : j ∈ underWay saves execution (past ++ [k]) := by
        have hsame : (past ++ [k]).count j = past.count j := by
          simp [List.count_append, Ne.symm hne]
        rw [mem_underWay] at hjin ⊢
        rwa [hsame]
      exact hne (h.unique List.prefix_rfl hjin' hkin)
  | opened name' _ | written name' =>
      have hkin : k ∈ underWay saves execution past :=
        mem_underWay_of_name name' hk (by rw [hstage]; rfl)
      exact hne (h.unique (List.prefix_append _ _) hjin hkin)
  | ended answer => exact hpending answer hstage

theorem Traffic.path_step (s : Traffic) (k : Nat) : (s.step saves k).disk.path = s.disk.path := by
  cases hk : saves[k]? with
  | none => rw [step_of_none hk]
  | some job =>
      rw [step_eq hk]
      exact (proceeds s.disk job.1 job.2.encoded (s.stage k)).path

theorem sound_run (saves : List (String × Text.Wide)) (path : String) (schedule : List Nat) :
    (Traffic.run saves (.new path) schedule).Sound saves ∧
      (Traffic.run saves (.new path) schedule).disk.path = path := by
  induction schedule using List.reverseRecOn with
  | nil => exact ⟨Traffic.Sound.new path, rfl⟩
  | append_singleton past k ih =>
      rw [Traffic.run_concat]
      exact ⟨ih.1.step k, (Traffic.path_step _ k).trans ih.2⟩

theorem Apart.ordered (path : String) (h : Apart saves execution schedule) :
    Ordered saves execution (Traffic.run saves (.new path) schedule) := by
  induction schedule using List.reverseRecOn with
  | nil => exact Ordered.new path
  | append_singleton past k ih =>
      rw [Traffic.run_concat]
      have hbefore := ih (h.isPrefix (List.prefix_append _ _))
      exact hbefore.step (sound_run saves path past).1 fun text hk => lone_of_apart h hk

theorem load_folder (hd : d.Sound) (hname : Nameable execution)
    (hfits : d.folder.Fits (execution ++ ending)) :
    load d.folder execution =
      .ok ((d.entries.get? (execution ++ ending)).map fun file => .ofString (d.text file)) := by
  have hget := Named.get?_values d.text d.entries (execution ++ ending)
  by_cases hmade : d.made
  · have hcheck := Folder.check_of_fits hmade hfits
    simp only [load, fileName_of_nameable hname, Folder.read, hcheck, bind, Except.bind]
    rw [show d.folder.files.get? (execution ++ ending) = _ from hget]
    cases d.entries.get? (execution ++ ending) <;> rfl
  · have hnone : d.entries.get? (execution ++ ending) = none := by
      cases hfile : d.entries.get? (execution ++ ending) with
      | none => rfl
      | some file => exact absurd (hd.made _ _ hfile) hmade
    have hcheck : d.folder.check (execution ++ ending) = .error .missing := by
      have hunmade : d.folder.made = false := Bool.eq_false_iff.2 hmade
      rw [Folder.check, if_neg (Nat.not_lt.2 hfits.1), hunmade]
      rfl
    simp only [load, fileName_of_nameable hname, Folder.read, hcheck, hnone, bind, Except.bind]
    rfl

theorem Ordered.load_whole (h : Ordered saves execution s) (hd : s.disk.Sound)
    (hname : Nameable execution) (hfits : s.disk.folder.Fits (execution ++ ending)) :
    load s.disk.folder execution = .ok none ∨
      ∃ (k : Nat) (text : Text.Wide), saves[k]? = some (execution, text) ∧
        load s.disk.folder execution = .ok (some (.ofString text.encoded)) := by
  rw [load_folder hd hname hfits]
  cases hfile : s.disk.entries.get? (execution ++ ending) with
  | none => exact .inl rfl
  | some file =>
      obtain ⟨k, text, hk, htext, -⟩ := h.kept file hfile
      exact .inr ⟨k, text, hk, by rw [← htext, Option.map_some]⟩

theorem Ordered.load_ne_none (h : Ordered saves execution s) (hd : s.disk.Sound)
    (hname : Nameable execution) (hfits : s.disk.folder.Fits (execution ++ ending))
    (hk : saves[k]? = some (execution, text)) (hended : s.stage k = .ended (.ok ())) :
    load s.disk.folder execution ≠ .ok none := by
  rw [load_folder hd hname hfits]
  intro hnone
  simp only [Except.ok.injEq, Option.map_eq_none_iff] at hnone
  exact h.bare hnone k text hk hended

theorem ended_of_count (path : String) {job : String × Text.Wide} (hk : saves[k]? = some job)
    (hcount : 3 ≤ schedule.count k) :
    ∃ answer, (Traffic.run saves (.new path) schedule).stage k = .ended answer := by
  have htaken {n : Nat} (hn : n < 3) :
      ((Traffic.run saves (.new path) schedule).stage k).taken? ≠ some n := by
    intro h
    rw [count_of_taken path hk h] at hcount
    omega
  cases hstage : (Traffic.run saves (.new path) schedule).stage k with
  | ready => exact absurd (by rw [hstage]; rfl) (htaken (n := 0) (by decide))
  | opened _ _ => exact absurd (by rw [hstage]; rfl) (htaken (n := 1) (by decide))
  | written _ => exact absurd (by rw [hstage]; rfl) (htaken (n := 2) (by decide))
  | ended answer => exact ⟨answer, rfl⟩

/-- A load gives nothing or the whole of a text that was saved, with the replacement character for each
half, and a save that takes its three steps succeeds. -/
structure Whole (path : String) (saves : List (String × Text.Wide)) (execution : String)
    (schedule : List Nat) : Prop where
  loads : Nameable execution → (Folder.new path).Fits (execution ++ ending) →
    load (Traffic.run saves (.new path) schedule).disk.folder execution = .ok none ∨
      ∃ (k : Nat) (text : Text.Wide), saves[k]? = some (execution, text) ∧
        load (Traffic.run saves (.new path) schedule).disk.folder execution =
          .ok (some (.ofString text.encoded))
  succeeds : Nameable execution →
    (Folder.new path).Fits (execution ++ ending ++ temporaryEnding) →
    ∀ (k : Nat) (text : Text.Wide), saves[k]? = some (execution, text) → 3 ≤ schedule.count k →
      (Traffic.run saves (.new path) schedule).stage k = .ended (.ok ())

theorem whole_of_apart (path : String) (h : Apart saves execution schedule) :
    Whole path saves execution schedule ∧
      (Nameable execution → (Folder.new path).Fits (execution ++ ending) →
        ∀ (k : Nat) (text : Text.Wide), saves[k]? = some (execution, text) →
          (Traffic.run saves (.new path) schedule).stage k = .ended (.ok ()) →
          load (Traffic.run saves (.new path) schedule).disk.folder execution ≠ .ok none) := by
  have hordered := h.ordered path
  obtain ⟨hsound, hpath⟩ := sound_run saves path schedule
  have hfits {name : String} (hname : (Folder.new path).Fits name) :
      (Traffic.run saves (.new path) schedule).disk.folder.Fits name :=
    fits_congr (show (Disk.new path).path = _ from hpath.symm) hname
  refine ⟨⟨fun hname hkept => ?_, fun hname hwritten k text hk hcount => ?_⟩,
    fun hname hkept k text hk hended => ?_⟩
  · exact hordered.load_whole hsound.disk hname (hfits hkept)
  · obtain ⟨answer, hended⟩ := ended_of_count path hk hcount
    rw [hended, hordered.succeeds k text answer hk hended hname (hfits hwritten)]
  · exact hordered.load_ne_none hsound.disk hname (hfits hkept) hk hended

namespace Overlap

def jobs : List (String × Text.Wide) :=
  [("exec-1", "a"), ("exec-1", "b"), ("exec-2", "c")]

def apart : List Nat := [0, 2, 0, 2, 0, 1, 1, 2]

theorem nameable : Nameable "exec-1" := by
  refine ⟨by decide, fun c hc => isNameChar_iff.1 ?_⟩
  exact List.all_eq_true.1 (by decide +kernel : "exec-1".toList.all isNameChar) c hc

theorem fits : (Folder.new "kept").Fits ("exec-1" ++ ending ++ temporaryEnding) :=
  ⟨by decide +kernel, by decide +kernel⟩

deriving instance DecidableEq for Stage

end Overlap

open Overlap in
theorem whole_of_apart_jobs : Apart jobs "exec-1" apart ∧ Whole "kept" jobs "exec-1" apart ∧
    load (Traffic.run jobs (.new "kept") apart).disk.folder "exec-1" = .ok (some (.ofString "a")) := by
  have hapart : Apart jobs "exec-1" apart := by decide +kernel
  exact ⟨hapart, (whole_of_apart "kept" hapart).1, by decide +kernel⟩

open Overlap in
theorem not_whole_of_overlap :
    (¬∀ path saves execution schedule, Whole path saves execution schedule) ∧
      load (Traffic.run jobs (.new "kept") [0, 0, 1, 0]).disk.folder "exec-1" =
        .ok (some (.ofString "")) ∧
      (Traffic.run jobs (.new "kept") [0, 0, 1, 1, 0, 1]).stage 1 =
        .ended (.error (.file .missing)) := by
  have hload : load (Traffic.run jobs (.new "kept") [0, 0, 1, 0]).disk.folder "exec-1" =
      .ok (some (.ofString "")) := by decide +kernel
  refine ⟨fun hclaim => ?_, hload, by decide +kernel⟩
  have hwhole := (hclaim "kept" jobs "exec-1" [0, 0, 1, 0]).loads nameable fits.of_append
  rw [hload] at hwhole
  rcases hwhole with hnone | ⟨k, text, hk, htext⟩
  · cases hnone
  · have hsaved : ∀ job ∈ jobs, Text.Wide.ofString job.2.encoded ≠ .ofString "" := by decide +kernel
    exact hsaved _ (List.mem_of_getElem? hk) (Option.some.inj (Except.ok.inj htext)).symm

end ToolGate.Archive
