import ToolGate.Proofs.Token.Retrieval
import ToolGate.Token.Saving

namespace ToolGate

namespace Disk

variable {d d' : Disk} {name other old fresh : String} {file i : Nat} {text : String}

theorem text_write (h : file < d.texts.length) (text : String) (i : Nat) :
    (d.write file text).text i = if i = file then text else d.text i := by
  simp only [Disk.text, write, List.getD_eq_getElem?_getD, List.getElem?_set, h, if_true]
  split
  · rename_i heq
    rw [if_pos heq.symm, Option.getD_some]
  · rename_i hne
    rw [if_neg (Ne.symm hne)]

theorem text_add (h : i < d.texts.length) : (d.add name).text i = d.text i := by
  simp only [Disk.text, add, List.getD_eq_getElem?_getD, List.getElem?_append_left h]

theorem rename_ok : d.rename old fresh = .ok d' ↔ ∃ file, d.entries.get? old = some file ∧
    d' = { d with entries := (d.entries.erase old).put fresh file } := by
  rw [rename]
  cases d.entries.get? old <;> simp [eq_comm]

structure Sound (d : Disk) : Prop where
  nodup : d.entries.names.Nodup
  stored : ∀ name file, d.entries.get? name = some file → file < d.texts.length
  distinct : ∀ name other file, d.entries.get? name = some file →
    d.entries.get? other = some file → name = other
  made : ∀ name file, d.entries.get? name = some file → d.made

theorem Sound.new (path : String) : Sound (.new path) where
  nodup := .nil
  stored _ _ h := by cases h
  distinct _ _ _ h := by cases h
  made _ _ h := by cases h

theorem Sound.make (h : d.Sound) : d.make.Sound where
  nodup := h.nodup
  stored := h.stored
  distinct := h.distinct
  made _ _ _ := rfl

theorem Sound.write (h : d.Sound) : (d.write file text).Sound where
  nodup := h.nodup
  stored name i hi := by simpa [Disk.write] using h.stored name i hi
  distinct := h.distinct
  made := h.made

theorem get?_add (d : Disk) (name other : String) : (d.add name).entries.get? other =
    if name = other then some d.texts.length else d.entries.get? other :=
  Named.get?_put _ _ _ _

theorem Sound.add (h : d.Sound) (hmade : d.made) : (d.add name).Sound where
  nodup := Named.nodup_put h.nodup _ _
  stored other i hi := by
    rw [get?_add] at hi
    simp only [Disk.add, List.length_append, List.length_singleton]
    split at hi
    · cases hi
      exact Nat.lt_succ_self _
    · exact Nat.lt_succ_of_lt (h.stored other i hi)
  distinct a b i ha hb := by
    rw [get?_add] at ha hb
    -- the number of the new file is that of no other
    have hnew {c : String} (hc : d.entries.get? c = some d.texts.length) : False :=
      Nat.lt_irrefl _ (h.stored c _ hc)
    split at ha <;> split at hb
    · simp_all
    · cases ha
      exact (hnew hb).elim
    · cases hb
      exact (hnew ha).elim
    · exact h.distinct a b i ha hb
  made _ _ _ := hmade

theorem Sound.get?_rename (h : d.Sound) (hd : d.rename old fresh = .ok d') (other : String) :
    d'.entries.get? other = if fresh = other then d.entries.get? old
      else if old = other then none else d.entries.get? other := by
  obtain ⟨file, hfile, rfl⟩ := rename_ok.1 hd
  rw [Named.get?_put, hfile]
  split
  · rfl
  · split
    · rename_i heq
      subst heq
      exact Named.get?_erase_self h.nodup _
    · rename_i hold
      exact Named.get?_erase hold _

theorem Sound.rename (h : d.Sound) (hd : d.rename old fresh = .ok d') : d'.Sound := by
  have hget := h.get?_rename hd
  obtain ⟨file, hfile, rfl⟩ := rename_ok.1 hd
  have hdistinct := h.distinct
  refine ⟨Named.nodup_put (h.nodup.sublist ?_) _ _, ?_, ?_, fun _ _ _ => h.made old file hfile⟩
  · exact (Named.erase_sublist _ _).map _
  · intro other i hi
    rw [hget] at hi
    split at hi
    · exact h.stored old i hi
    · split at hi
      · cases hi
      · exact h.stored other i hi
  · intro a b i ha hb
    rw [hget] at ha hb
    grind

theorem Sound.folder_erase (h : d.Sound) (hname : d.entries.get? name = some file) (text : String) :
    (d.write file text).folder.erase name = d.folder.erase name := by
  have hfile := h.stored name file hname
  have hrest : ∀ e ∈ d.entries.erase name, (d.write file text).text e.2 = d.text e.2 := by
    rintro ⟨other, i⟩ he
    have hmem := (Named.erase_sublist name d.entries).subset he
    rw [text_write hfile, if_neg]
    rintro rfl
    -- the one entry that stands for the file is the one that has been taken out
    obtain rfl := h.distinct name other i hname (Named.get?_of_mem h.nodup hmem)
    have hgone := Named.get?_erase_self h.nodup name
    have hthere := Named.get?_of_mem (h.nodup.sublist ((Named.erase_sublist _ _).map _)) he
    rw [hgone] at hthere
    cases hthere
  simp only [folder, Folder.erase, Named.erase_values]
  congr 1
  exact List.map_congr_left fun e he => by rw [hrest e he]

theorem Sound.folder_add_erase (h : d.Sound) (hname : d.entries.get? name = none) :
    (d.add name).folder.erase name = d.folder.erase name := by
  have hgone := Named.get?_eq_none.1 hname
  have hrest : ∀ e ∈ d.entries, (d.add name).text e.2 = d.text e.2 := by
    intro e he
    exact text_add (h.stored _ _ (Named.get?_of_mem h.nodup he))
  have herase : (d.add name).entries.erase name = d.entries := Named.erase_put hgone _
  simp only [folder, Folder.erase, Named.erase_values, herase, Named.erase_of_notMem hgone]
  congr 1
  exact List.map_congr_left fun e he => by rw [hrest e he]

theorem Sound.truncate (h : d.Sound) (hmade : d.made) (name : String) :
    (d.truncate name).2.Sound ∧
      (d.truncate name).2.entries.get? name = some (d.truncate name).1 ∧
      (d.truncate name).2.folder.erase name = d.folder.erase name := by
  rw [Disk.truncate]
  split
  · rename_i file hfile
    exact ⟨h.write, hfile, h.folder_erase hfile ""⟩
  · rename_i hnone
    exact ⟨h.add hmade, by rw [get?_add, if_pos rfl], h.folder_add_erase hnone⟩

theorem folder_rename (hname : d.entries.get? old = some file) (hd : d.rename old fresh = .ok d') :
    d'.folder = (d.folder.erase old).put fresh (d.text file) := by
  obtain ⟨moved, hmoved, rfl⟩ := rename_ok.1 hd
  cases hname.symm.trans hmoved
  simp only [folder, Folder.erase, Folder.put, Named.erase_values, Named.put_values]
  rfl

end Disk

namespace Archive

open Disk (Sound)

inductive Proceeds (d : Disk) (execution text : String) : Stage → Disk → Stage → Prop
  | refused {f d'} : d' = d ∨ d' = d.make →
      ¬(Nameable execution ∧ d.folder.Fits (execution ++ ending ++ temporaryEnding)) →
      Proceeds d execution text .ready d' (.ended (.error f))
  | opens {file} : Nameable execution →
      d.entries.get? (execution ++ ending ++ temporaryEnding) = some file →
      Proceeds d execution text .ready (d.make.write file "") (.opened (execution ++ ending) file)
  | adds : Nameable execution →
      d.entries.get? (execution ++ ending ++ temporaryEnding) = none →
      Proceeds d execution text .ready (d.make.add (execution ++ ending ++ temporaryEnding))
        (.opened (execution ++ ending) d.texts.length)
  | writes {name file} :
      Proceeds d execution text (.opened name file) (d.write file text) (.written name)
  | publishes {name d'} : d.rename (name ++ temporaryEnding) name = .ok d' →
      Proceeds d execution text (.written name) d' (.ended (.ok ()))
  | loses {name} : d.entries.get? (name ++ temporaryEnding) = none →
      Proceeds d execution text (.written name) d (.ended (.error (.file .missing)))
  | rests {answer} : Proceeds d execution text (.ended answer) d (.ended answer)

variable {d d' : Disk} {execution other text name : String} {file k j : Nat}
  {stage stage' : Stage} {saves : List (String × Text.Wide)} {s : Traffic} {job : String × Text.Wide}

theorem proceeds (d : Disk) (execution text : String) (stage : Stage) :
    Proceeds d execution text stage (proceed d execution text stage).1
      (proceed d execution text stage).2 := by
  cases stage with
  | ready =>
      by_cases hname : Nameable execution
      · simp only [proceed, fileName_of_nameable hname]
        by_cases hfits : d.make.folder.Fits (execution ++ ending ++ temporaryEnding)
        · rw [Folder.check_of_fits rfl hfits]
          dsimp only [Disk.truncate]
          split
          · exact .opens hname ‹_›
          · exact .adds hname ‹_›
        · rw [Folder.check_of_not_fits rfl hfits]
          exact .refused (.inr rfl) fun h => hfits h.2
      · simp only [proceed, fileName_of_not_nameable hname]
        exact .refused (.inl rfl) fun h => hname h.1
  | opened name file => exact .writes
  | written name =>
      simp only [proceed, Disk.rename]
      cases hfile : d.entries.get? (name ++ temporaryEnding) with
      | none => exact .loses hfile
      | some file => exact .publishes (Disk.rename_ok.2 ⟨file, hfile, rfl⟩)
  | ended answer => exact .rests

namespace Traffic

theorem step_eq (h : saves[k]? = some job) :
    step saves s k = s.put k (proceed s.disk job.1 job.2.encoded (s.stage k)) := by
  rw [step, h]

theorem step_of_none (h : saves[k]? = none) : step saves s k = s := by
  rw [step, h]

theorem stage_put (s : Traffic) (k : Nat) (next : Disk × Stage) (j : Nat) :
    (s.put k next).stage j = if j = k then next.2 else s.stage j := rfl

theorem put_ended {answer : Except ArchiveFault Unit} (h : s.stage k = .ended answer)
    (execution text : String) : s.put k (proceed s.disk execution text (s.stage k)) = s := by
  have hrest : proceed s.disk execution text (s.stage k) = (s.disk, s.stage k) := by
    rw [h]
    rfl
  have hstage : (fun j => if j = k then s.stage k else s.stage j) = s.stage := by
    funext j
    split
    · rename_i heq
      rw [heq]
    · rfl
  rw [hrest, put, hstage]

theorem run_concat (saves : List (String × Text.Wide)) (s : Traffic) (past : List Nat) (k : Nat) :
    run saves s (past ++ [k]) = step saves (run saves s past) k := by
  simp [run]

end Traffic

def Stage.name? : Stage → Option String
  | .opened name _ | .written name => some name
  | .ready | .ended _ => none

def NameOf (execution name : String) : Prop :=
  name = execution ++ ending ∨ name = execution ++ ending ++ temporaryEnding

theorem NameOf.unique (h : NameOf execution name) (h' : NameOf other name) : execution = other := by
  rcases h with rfl | rfl <;> rcases h' with heq | heq
  · exact append_ending_inj.1 heq
  · exact (temporary_ne heq.symm).elim
  · exact (temporary_ne heq).elim
  · exact append_ending_inj.1 ((String.append_left_inj _).1 heq)

def OwnFile (d : Disk) (execution : String) (file : Nat) : Prop :=
  file < d.texts.length ∧ ∀ name, d.entries.get? name = some file → NameOf execution name

theorem Proceeds.sound (h : Proceeds d execution text stage d' stage') (hd : d.Sound) :
    d'.Sound := by
  cases h with
  | refused hsame _ =>
      rcases hsame with rfl | rfl
      · exact hd
      · exact hd.make
  | opens => exact hd.make.write
  | adds => exact hd.make.add rfl
  | writes => exact hd.write
  | publishes hmove => exact hd.rename hmove
  | loses => exact hd
  | rests => exact hd

structure Traffic.Sound (saves : List (String × Text.Wide)) (s : Traffic) : Prop where
  disk : s.disk.Sound
  named : ∀ k job name, saves[k]? = some job → (s.stage k).name? = some name →
    name = job.1 ++ ending
  opened : ∀ k job name file, saves[k]? = some job → s.stage k = .opened name file →
    OwnFile s.disk job.1 file

theorem Proceeds.named (h : Proceeds d execution text stage d' stage')
    (hbefore : ∀ name, stage.name? = some name → name = execution ++ ending)
    (hname : stage'.name? = some name) : name = execution ++ ending := by
  cases h with
  | refused => cases hname
  | opens => cases hname; rfl
  | adds => cases hname; rfl
  | writes => exact hbefore _ hname
  | publishes => cases hname
  | loses => cases hname
  | rests => cases hname

theorem Proceeds.ownFile (h : Proceeds d execution text stage d' stage') (hd : d.Sound)
    (hname : ∀ name, stage.name? = some name → name = execution ++ ending)
    (hown : OwnFile d other file) : OwnFile d' other file := by
  obtain ⟨hfile, hnames⟩ := hown
  cases h with
  | refused hsame _ =>
      rcases hsame with rfl | rfl
      · exact ⟨hfile, hnames⟩
      · exact ⟨hfile, hnames⟩
  | opens => exact ⟨by simpa [Disk.write, Disk.make] using hfile, hnames⟩
  | adds _ hnone =>
      refine ⟨?_, fun name hget => ?_⟩
      · simp only [Disk.add, Disk.make, List.length_append]
        exact Nat.lt_add_right _ hfile
      · rw [Disk.get?_add] at hget
        split at hget
        · cases hget
          exact (Nat.lt_irrefl _ hfile).elim
        · exact hnames name hget
  | writes => exact ⟨by simpa [Disk.write] using hfile, hnames⟩
  | @publishes name d' hmove =>
      obtain rfl := hname name rfl
      have hget := hd.get?_rename hmove
      obtain ⟨moved, hmoved, rfl⟩ := Disk.rename_ok.1 hmove
      refine ⟨hfile, fun name' h' => ?_⟩
      rw [hget] at h'
      split at h'
      · rename_i heq
        have howner : other = execution := (hnames _ h').unique (.inr rfl)
        exact .inl (howner ▸ heq.symm)
      · split at h'
        · cases h'
        · exact hnames name' h'
  | loses => exact ⟨hfile, hnames⟩
  | rests => exact ⟨hfile, hnames⟩

theorem Proceeds.opened (h : Proceeds d execution text stage d' (.opened name file))
    (hd : d.Sound) : OwnFile d' execution file := by
  cases h with
  | opens _ hfile =>
      refine ⟨by simpa [Disk.write, Disk.make] using hd.stored _ _ hfile, fun other hother => ?_⟩
      exact .inr (hd.distinct _ _ _ hother hfile)
  | adds _ hnone =>
      refine ⟨by simp [Disk.add, Disk.make], fun other hother => ?_⟩
      rw [Disk.get?_add] at hother
      split at hother
      · rename_i heq
        exact .inr heq.symm
      · exact (Nat.lt_irrefl _ (hd.stored _ _ hother)).elim

theorem Traffic.Sound.new (path : String) : Traffic.Sound saves (.new path) where
  disk := Disk.Sound.new path
  named _ _ _ _ h := by cases h
  opened _ _ _ _ _ h := by cases h

theorem Traffic.Sound.step (h : s.Sound saves) (k : Nat) : (s.step saves k).Sound saves := by
  cases hjob : saves[k]? with
  | none => rwa [step_of_none hjob]
  | some job =>
      have hnext := proceeds s.disk job.1 job.2.encoded (s.stage k)
      have hname : ∀ name, (s.stage k).name? = some name → name = job.1 ++ ending :=
        fun name => h.named k job name hjob
      rw [step_eq hjob]
      refine ⟨hnext.sound h.disk, fun j job' name hj hjname => ?_,
        fun j job' name file hj hjname => ?_⟩
      · rw [stage_put] at hjname
        split at hjname
        · rename_i heq
          subst heq
          cases hjob.symm.trans hj
          exact hnext.named hname hjname
        · exact h.named j job' name hj hjname
      · rw [stage_put] at hjname
        split at hjname
        · rename_i heq
          subst heq
          cases hjob.symm.trans hj
          rw [hjname] at hnext
          exact hnext.opened h.disk
        · exact hnext.ownFile h.disk hname (h.opened j job' name file hj hjname)

def Untouched (execution : String) (d d' : Disk) : Prop :=
  ∀ name, NameOf execution name → d'.entries.get? name = d.entries.get? name ∧
    ∀ file, d.entries.get? name = some file → d'.text file = d.text file

theorem Proceeds.untouched (h : Proceeds d execution text stage d' stage') (hd : d.Sound)
    (hname : ∀ name, stage.name? = some name → name = execution ++ ending)
    (hown : ∀ name file, stage = .opened name file → OwnFile d execution file)
    (hother : execution ≠ other) : Untouched other d d' := by
  intro name hnameOf
  have hname' : ¬NameOf execution name := fun h => hother (h.unique hnameOf)
  have hfile' {file i : Nat} (hfile : OwnFile d execution file) (hi : d.entries.get? name = some i) :
      i ≠ file := by
    rintro rfl
    exact hname' (hfile.2 name hi)
  cases h with
  | refused hsame _ =>
      rcases hsame with rfl | rfl
      · exact ⟨rfl, fun _ _ => rfl⟩
      · exact ⟨rfl, fun _ _ => rfl⟩
  | @opens file _ hfile =>
      have hstored := hd.stored _ _ hfile
      refine ⟨rfl, fun i hi => ?_⟩
      have hne : i ≠ file := hfile' ⟨hstored, fun _ h => .inr (hd.distinct _ _ _ h hfile)⟩ hi
      rw [Disk.text_write (by exact hstored), if_neg hne]
      rfl
  | adds _ hnone =>
      refine ⟨?_, fun i hi => Disk.text_add (hd.stored _ _ hi)⟩
      rw [Disk.get?_add, if_neg fun heq => hname' (.inr heq.symm)]
      rfl
  | @writes opened file =>
      have hfile := hown opened file rfl
      exact ⟨rfl, fun i hi => by rw [Disk.text_write hfile.1, if_neg (hfile' hfile hi)]⟩
  | @publishes written d' hmove =>
      obtain rfl := hname written rfl
      have hget := hd.get?_rename hmove name
      rw [if_neg fun heq => hname' (.inl heq.symm), if_neg fun heq => hname' (.inr heq.symm)] at hget
      obtain ⟨_, -, rfl⟩ := Disk.rename_ok.1 hmove
      exact ⟨hget, fun _ _ => rfl⟩
  | loses => exact ⟨rfl, fun _ _ => rfl⟩
  | rests => exact ⟨rfl, fun _ _ => rfl⟩

def saveThrough (d : Disk) (execution text : String) : Disk × Stage :=
  let opened := proceed d execution text .ready
  let written := proceed opened.1 execution text opened.2
  proceed written.1 execution text written.2

theorem save_make (hname : Nameable execution) (text : Text.Wide) :
    save d.make.folder execution text = save d.folder execution text := by
  simp only [save, fileName_of_nameable hname]
  rfl

theorem saveThrough_opened {old : String} (hd : d.Sound)
    (hfile : d.entries.get? old = some file) (text fresh : String) :
    ∃ d', (d.write file text).rename old fresh = .ok d' ∧
      d'.folder = (d.folder.erase old).put fresh text := by
  obtain ⟨d', hd'⟩ : ∃ d', (d.write file text).rename old fresh = .ok d' :=
    ⟨_, Disk.rename_ok.2 ⟨file, hfile, rfl⟩⟩
  refine ⟨d', hd', ?_⟩
  rw [Disk.folder_rename (d := d.write file text) hfile hd', hd.folder_erase hfile,
    Disk.text_write (hd.stored _ _ hfile), if_pos rfl]

theorem saveThrough_eq (hd : d.Sound) (execution : String) (text : Text.Wide) :
    (saveThrough d execution text.encoded).2 = .ended (save d.folder execution text).1 ∧
      (saveThrough d execution text.encoded).1.folder = (save d.folder execution text).2 := by
  by_cases hname : Nameable execution
  · have hfile := fileName_of_nameable hname
    rw [← save_make hname]
    by_cases hfits : d.make.folder.Fits (execution ++ ending ++ temporaryEnding)
    · obtain ⟨hopened, hget, herase⟩ :=
        hd.make.truncate rfl (execution ++ ending ++ temporaryEnding)
      obtain ⟨d', hmove, hfolder⟩ := saveThrough_opened hopened hget text.encoded (execution ++ ending)
      rw [herase] at hfolder
      rw [save_of_fits rfl hname hfits, ← hfolder]
      simp only [saveThrough, proceed, hfile, Folder.check_of_fits rfl hfits, hmove, and_self]
    · rw [save_of_not_fits rfl hname hfits]
      have hcheck := Folder.check_of_not_fits rfl hfits
      simp only [saveThrough, proceed, hfile, hcheck, and_self]
  · rw [save_of_not_nameable hname]
    simp only [saveThrough, proceed, fileName_of_not_nameable hname, and_self]

theorem Traffic.run_alone (hd : s.disk.Sound) (hjob : saves[k]? = some job)
    (hready : s.stage k = .ready) :
    (s.run saves [k, k, k]).stage k = .ended (save s.disk.folder job.1 job.2).1 ∧
      (s.run saves [k, k, k]).disk.folder = (save s.disk.folder job.1 job.2).2 := by
  have hthrough := saveThrough_eq hd job.1 job.2
  simp only [saveThrough, ← hready] at hthrough
  simp only [run, List.foldl_cons, List.foldl_nil, step_eq hjob, stage_put, if_true]
  exact hthrough

end Archive

end ToolGate
