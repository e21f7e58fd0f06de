import Mathlib.Logic.Basic
import ToolGate.Proofs.Named
import ToolGate.Proofs.Text.Order
import ToolGate.Proofs.Token.Archiving

namespace ToolGate

namespace Folder

variable {d : Folder} {name : String}

def Fits (d : Folder) (name : String) : Prop :=
  (d.path ++ "/" ++ name).utf8ByteSize ≤ maxFilePath ∧ name.utf8ByteSize ≤ maxFileName

theorem check_of_fits (hmade : d.made) (h : d.Fits name) : d.check name = .ok () :=
  check_ok.2 ⟨h.1, hmade, h.2⟩

theorem check_of_not_fits (hmade : d.made) (h : ¬d.Fits name) :
    d.check name = .error .nameTooLong := by
  rw [Fits, not_and_or, Nat.not_le, Nat.not_le] at h
  rw [check]
  rcases h with hpath | hname
  · rw [if_pos hpath]
  · simp [hmade, hname]

theorem Fits.of_append {more : String} (h : d.Fits (name ++ more)) : d.Fits name := by
  obtain ⟨hpath, hname⟩ := h
  simp only [String.utf8ByteSize_append] at hpath hname
  constructor
  · simp only [String.utf8ByteSize_append]
    omega
  · omega

end Folder

namespace Archive

open Text (Wide)

variable {d d' : Folder} {execution other : String} {text : Wide} {log : List (String × Wide)}

def Nameable (execution : String) : Prop :=
  execution ≠ "" ∧ ∀ c ∈ execution.toList,
    ('A' ≤ c ∧ c ≤ 'Z') ∨ ('a' ≤ c ∧ c ≤ 'z') ∨ ('0' ≤ c ∧ c ≤ '9') ∨ c = '_' ∨ c = '.' ∨ c = '-'

theorem isNameChar_iff {c : Char} : isNameChar c ↔
    ('A' ≤ c ∧ c ≤ 'Z') ∨ ('a' ≤ c ∧ c ≤ 'z') ∨ ('0' ≤ c ∧ c ≤ '9') ∨ c = '_' ∨ c = '.' ∨
      c = '-' := by
  have hupper : c.isUpper ↔ 'A' ≤ c ∧ c ≤ 'Z' := decide_eq_true_iff
  have hlower : c.isLower ↔ 'a' ≤ c ∧ c ≤ 'z' :=
    Bool.and_eq_true_iff.trans (and_congr decide_eq_true_iff decide_eq_true_iff)
  have hdigit : c.isDigit ↔ '0' ≤ c ∧ c ≤ '9' :=
    Bool.and_eq_true_iff.trans (and_congr decide_eq_true_iff decide_eq_true_iff)
  have hsplit : isNameChar c =
      ((c.isUpper || c.isLower || c.isDigit) || c == '_' || c == '.' || c == '-') := rfl
  simp only [hsplit, Bool.or_eq_true, hupper, hlower, hdigit, beq_iff_eq, or_assoc]

theorem fileName_of_nameable (h : Nameable execution) :
    fileName execution = .ok (execution ++ ending) := by
  have hall : execution.toList.all isNameChar := by
    rw [List.all_eq_true]
    intro c hc
    exact isNameChar_iff.2 (h.2 c hc)
  simp [fileName, h.1, hall]

theorem fileName_of_not_nameable (h : ¬Nameable execution) :
    fileName execution = .error (.invalidName execution) := by
  rw [fileName, if_neg]
  intro hname
  simp only [Bool.and_eq_true, bne_iff_ne, List.all_eq_true] at hname
  exact h ⟨hname.1, fun c hc => isNameChar_iff.1 (hname.2 c hc)⟩

theorem Nameable.isBasic (h : Nameable execution) : Text.IsBasic execution := by
  intro c hc
  have hchar := h.2 c hc
  simp only [Char.le_def, UInt32.le_iff_toNat_le] at hchar
  change c.val.toNat < 0x10000
  rcases hchar with h | h | h | rfl | rfl | rfl
  · exact Nat.lt_of_le_of_lt h.2 (by decide)
  · exact Nat.lt_of_le_of_lt h.2 (by decide)
  · exact Nat.lt_of_le_of_lt h.2 (by decide)
  · decide
  · decide
  · decide

theorem executionOf?_append (execution : String) :
    executionOf? (execution ++ ending) = some execution := by
  have htake : (execution.toList ++ ending.toList).take execution.length = execution.toList := by
    rw [← String.length_toList, List.take_left]
  simp [executionOf?, htake]

theorem append_ending_inj : execution ++ ending = other ++ ending ↔ execution = other := by
  constructor
  · intro h
    have hexecution := congrArg executionOf? h
    rw [executionOf?_append, executionOf?_append] at hexecution
    exact Option.some.inj hexecution
  · rintro rfl
    rfl

theorem temporary_ne : execution ++ ending ++ temporaryEnding ≠ other ++ ending := by
  intro h
  have hlast := congrArg (fun s : String => s.toList.getLast?) h
  simp [ending, temporaryEnding] at hlast

inductive Call where
  | save (execution : String) (text : Wide)
  | load (execution : String)
  | list

def call (d : Folder) : Call → Folder
  | .save execution text => (save d execution text).2
  | .load _ | .list => d

def run (d : Folder) (calls : List Call) : Folder :=
  calls.foldl call d

def kept (d : Folder) : Call → List (String × Wide)
  | .save execution text =>
      match (save d execution text).1 with
      | .ok () => [(execution, text)]
      | .error _ => []
  | .load _ | .list => []

def saves (d : Folder) : List Call → List (String × Wide)
  | [] => []
  | c :: cs => kept d c ++ saves (call d c) cs

def lastText (execution : String) (log : List (String × Wide)) : Option Wide :=
  (log.reverse.find? (·.1 == execution)).map Prod.snd

theorem lastText_concat : lastText other (log ++ [(execution, text)]) =
    if execution = other then some text else lastText other log := by
  rw [lastText, List.reverse_append]
  by_cases h : execution = other
  · simp [h]
  · simp [h, lastText]

theorem lastText_eq_none : lastText execution log = none ↔ execution ∉ log.map Prod.fst := by
  rw [lastText, Option.map_eq_none_iff, List.find?_eq_none]
  simp only [List.mem_reverse, beq_iff_eq]
  constructor
  · rintro h hmem
    obtain ⟨x, hx, rfl⟩ := List.mem_map.1 hmem
    exact h x hx rfl
  · rintro h x hx rfl
    exact h (List.mem_map_of_mem hx)

structure Holds (d : Folder) (log : List (String × Wide)) : Prop where
  made : d.made
  distinct : d.files.names.Nodup
  named : ∀ name ∈ d.files.names, ∃ execution, Nameable execution ∧ name = execution ++ ending
  text : ∀ execution, d.files.get? (execution ++ ending) =
    (lastText execution log).map Wide.encoded
  fitting : ∀ x ∈ log, Nameable x.1 ∧ d.Fits (x.1 ++ ending)

theorem save_of_not_nameable (h : ¬Nameable execution) :
    save d execution text = (.error (.invalidName execution), d) := by
  rw [save, fileName_of_not_nameable h]

theorem load_of_not_nameable (h : ¬Nameable execution) :
    load d execution = .error (.invalidName execution) := by
  rw [load, fileName_of_not_nameable h]

theorem save_of_not_fits (hmade : d.made) (hname : Nameable execution)
    (h : ¬d.Fits (execution ++ ending ++ temporaryEnding)) :
    save d execution text = (.error (.file .nameTooLong), d) := by
  simp only [save, fileName_of_nameable hname, Folder.make_of_made hmade,
    Folder.check_of_not_fits hmade h]

theorem save_of_fits (hmade : d.made) (hname : Nameable execution)
    (h : d.Fits (execution ++ ending ++ temporaryEnding)) (text : Wide) :
    save d execution text = (.ok (),
      (d.erase (execution ++ ending ++ temporaryEnding)).put (execution ++ ending) text.encoded) := by
  simp only [save, fileName_of_nameable hname, Folder.make_of_made hmade,
    Folder.check_of_fits hmade h]

theorem save_ok (hmade : d.made) : (save d execution text).1 = .ok () ↔
    Nameable execution ∧ d.Fits (execution ++ ending ++ temporaryEnding) := by
  by_cases hname : Nameable execution
  · by_cases hfits : d.Fits (execution ++ ending ++ temporaryEnding)
    · simp [save_of_fits hmade hname hfits text, hname, hfits]
    · simp [save_of_not_fits hmade hname hfits, hfits]
  · simp [save_of_not_nameable hname, hname]

theorem save_error {f : ArchiveFault} (hmade : d.made) (h : (save d execution text).1 = .error f) :
    (save d execution text).2 = d := by
  by_cases hname : Nameable execution
  · by_cases hfits : d.Fits (execution ++ ending ++ temporaryEnding)
    · rw [save_of_fits hmade hname hfits text] at h
      cases h
    · rw [save_of_not_fits hmade hname hfits]
  · rw [save_of_not_nameable hname]

namespace Holds

theorem temporary_notMem (h : Holds d log) :
    execution ++ ending ++ temporaryEnding ∉ d.files.names := by
  intro hmem
  obtain ⟨other, -, heq⟩ := h.named _ hmem
  exact temporary_ne heq

theorem put (h : Holds d log) (hname : Nameable execution)
    (hfits : d.Fits (execution ++ ending)) :
    Holds (d.put (execution ++ ending) text.encoded) (log ++ [(execution, text)]) := by
  refine ⟨h.made, Named.nodup_put h.distinct _ _, ?_, ?_, ?_⟩
  · intro name hmem
    rw [Folder.put, Named.names_put] at hmem
    split at hmem
    · exact h.named name hmem
    · rcases List.mem_append.1 hmem with hold | hnew
      · exact h.named name hold
      · exact ⟨execution, hname, List.mem_singleton.1 hnew⟩
  · intro other
    rw [Folder.put, Named.get?_put, lastText_concat, h.text]
    simp only [append_ending_inj]
    split <;> rfl
  · intro x hx
    rcases List.mem_append.1 hx with hold | hnew
    · exact h.fitting x hold
    · rw [List.mem_singleton.1 hnew]
      exact ⟨hname, hfits⟩

theorem call (h : Holds d log) (c : Call) : Holds (call d c) (log ++ kept d c) := by
  cases c with
  | load execution => simpa [Archive.call, kept] using h
  | list => simpa [Archive.call, kept] using h
  | save execution text =>
      by_cases hsave : (save d execution text).1 = .ok ()
      · obtain ⟨hname, hfits⟩ := (save_ok h.made).1 hsave
        have hstate := save_of_fits h.made hname hfits text
        have herase : d.erase (execution ++ ending ++ temporaryEnding) = d := by
          rw [Folder.erase, Named.erase_of_notMem h.temporary_notMem]
        rw [herase] at hstate
        simp only [Archive.call, kept, hstate]
        exact h.put hname hfits.of_append
      · cases hresult : (save d execution text).1 with
        | ok u => exact absurd hresult hsave
        | error f => simpa [Archive.call, kept, hresult, save_error h.made hresult] using h

theorem run (h : Holds d log) (calls : List Call) :
    Holds (run d calls) (log ++ saves d calls) := by
  induction calls generalizing d log with
  | nil => simpa [Archive.run, saves] using h
  | cons c cs ih =>
      have hrest := ih (h.call c)
      rw [List.append_assoc] at hrest
      exact hrest

theorem load_eq (h : Holds d log) (hname : Nameable execution)
    (hfits : d.Fits (execution ++ ending)) :
    load d execution = .ok ((lastText execution log).map fun text => .ofString text.encoded) := by
  have hcheck := Folder.check_of_fits h.made hfits
  have htext := h.text execution
  simp only [load, fileName_of_nameable hname, Folder.read, hcheck, htext, bind, Except.bind]
  cases lastText execution log <;> rfl

theorem load_error (h : Holds d log) (hname : Nameable execution)
    (hfits : ¬d.Fits (execution ++ ending)) :
    load d execution = .error (.file .nameTooLong) := by
  have hcheck := Folder.check_of_not_fits h.made hfits
  simp only [load, fileName_of_nameable hname, Folder.read, hcheck, bind, Except.bind]

theorem mem_list (h : Holds d log) : execution ∈ list d ↔ execution ∈ log.map Prod.fst := by
  rw [list, Text.mem_sort, List.mem_filterMap]
  have hstored : execution ++ ending ∈ d.files.names ↔ execution ∈ log.map Prod.fst := by
    rw [← not_iff_not, ← Named.get?_eq_none, h.text, Option.map_eq_none_iff, lastText_eq_none]
  rw [← hstored]
  constructor
  · rintro ⟨name, hmem, hexecution⟩
    obtain ⟨other, -, rfl⟩ := h.named name hmem
    rw [executionOf?_append] at hexecution
    rwa [← Option.some.inj hexecution]
  · intro hmem
    exact ⟨execution ++ ending, hmem, executionOf?_append execution⟩

theorem nodup_list (h : Holds d log) : (list d).Nodup := by
  rw [list, (Text.sort_perm _).nodup_iff, List.Nodup, List.pairwise_filterMap]
  apply h.distinct.imp_of_mem
  intro name name' hmem hmem' hne execution hexecution execution' hexecution' heq
  obtain ⟨other, -, rfl⟩ := h.named name hmem
  obtain ⟨other', -, rfl⟩ := h.named name' hmem'
  rw [executionOf?_append] at hexecution hexecution'
  cases hexecution
  cases hexecution'
  exact hne (append_ending_inj.2 heq)

theorem nameable_of_mem_list (h : Holds d log) (hmem : execution ∈ list d) :
    Nameable execution := by
  obtain ⟨x, hx, rfl⟩ := List.mem_map.1 (h.mem_list.1 hmem)
  exact (h.fitting x hx).1

theorem ascending (h : Holds d log) :
    (list d).Pairwise fun a b => List.Lex (· < ·) a.toList b.toList := by
  have hsorted := Text.pairwise_sort (d.files.names.filterMap executionOf?)
  apply (hsorted.and h.nodup_list).imp_of_mem
  intro a b ha hb hab
  have hbasic := (h.nameable_of_mem_list ha).isBasic
  have hbasic' := (h.nameable_of_mem_list hb).isBasic
  exact Text.lex_of_le hbasic hbasic' hab.1 hab.2

theorem of_empty (path : String) : Holds (.holding path []) [] :=
  ⟨rfl, .nil, by simp [Folder.holding, Named.names], fun _ => rfl, by simp⟩

end Holds

theorem path_call (d : Folder) (c : Call) : (call d c).path = d.path := by
  cases c with
  | load execution => rfl
  | list => rfl
  | save execution text =>
      rw [call, save]
      split
      · rfl
      · dsimp only
        split <;> rfl

theorem path_run (d : Folder) (calls : List Call) : (run d calls).path = d.path := by
  induction calls generalizing d with
  | nil => rfl
  | cons c cs ih => exact (ih (call d c)).trans (path_call d c)

structure ActsAsMap (d : Folder) (log : List (String × Wide)) : Prop where
  loads : ∀ execution, Nameable execution → d.Fits (execution ++ ending) →
    load d execution = .ok ((lastText execution log).map fun text => .ofString text.encoded)
  returns : ∀ execution (s : String), Nameable execution → d.Fits (execution ++ ending) →
    lastText execution log = some (.ofString s) → load d execution = .ok (some (.ofString s))
  tooLong : ∀ execution, Nameable execution → ¬d.Fits (execution ++ ending) →
    load d execution = .error (.file .nameTooLong)
  refuses : ∀ execution text, ¬Nameable execution →
    save d execution text = (.error (.invalidName execution), d) ∧
      load d execution = .error (.invalidName execution)
  saves : ∀ execution text, (save d execution text).1 = .ok () ↔
    Nameable execution ∧ d.Fits (execution ++ ending ++ temporaryEnding)
  fails : ∀ execution text f, (save d execution text).1 = .error f →
    (∀ other, load (save d execution text).2 other = load d other) ∧
      list (save d execution text).2 = list d
  lists : ∀ execution, execution ∈ list d ↔ execution ∈ log.map Prod.fst
  ascends : (list d).Pairwise fun a b => List.Lex (· < ·) a.toList b.toList

theorem Holds.actsAsMap (h : Holds d log) : ActsAsMap d log where
  loads _ := h.load_eq
  returns execution s hname hfits hlast := by
    rw [h.load_eq hname hfits, hlast, Option.map_some, Wide.encoded_ofString]
  tooLong _ := h.load_error
  refuses _ _ hname := ⟨save_of_not_nameable hname, load_of_not_nameable hname⟩
  saves _ _ := save_ok h.made
  fails execution text f hsave := by
    rw [save_error h.made hsave]
    exact ⟨fun _ => rfl, rfl⟩
  lists _ := h.mem_list
  ascends := h.ascending

theorem map_of_calls (path : String) (calls : List Call) :
    (run (.holding path []) calls).path = path ∧
      ActsAsMap (run (.holding path []) calls) (saves (.holding path []) calls) := by
  refine ⟨path_run _ calls, ?_⟩
  exact ((Holds.of_empty path).run calls).actsAsMap

namespace Retrieval

def half : Wide := ⟨[0xD800], by decide⟩

theorem nameable : Nameable "x" := by
  refine ⟨by decide, fun c hc => isNameChar_iff.1 ?_⟩
  exact List.all_eq_true.1 (by decide +kernel : "x".toList.all isNameChar) c hc

theorem fits : (Folder.holding "kept" []).Fits ("x" ++ ending) :=
  ⟨by decide +kernel, by decide +kernel⟩

end Retrieval

open Retrieval in
theorem not_map_of_calls : ¬∀ (path : String) (calls : List Call) (execution : String),
    Nameable execution → (run (.holding path []) calls).Fits (execution ++ ending) →
      load (run (.holding path []) calls) execution =
        .ok (lastText execution (saves (.holding path []) calls)) := by
  intro hclaim
  have hreturned := hclaim "kept" [.save "x" half] "x" nameable fits
  exact absurd hreturned (by decide +kernel)

example : list (run (.holding "kept" []) [.save "x.authority.json" "a", .save "a b" "b",
    .save ".." "c", .save "x" "d", .save "x" "e"]) = ["..", "x", "x.authority.json"] := by
  decide +kernel

end Archive

end ToolGate
