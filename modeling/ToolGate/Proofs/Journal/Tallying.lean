import Mathlib.Algebra.GroupWithZero.Nat
import Mathlib.Algebra.Order.BigOperators.Group.Finset
import ToolGate.Proofs.Journal.Skipping

namespace ToolGate.DayFiles

variable {d : DayFiles} {f : Filter} {fs : List Filter} {found es : List Entry} {name : String}
  {names newer : List String}

def corruptLines (content : String) : Nat :=
  ((fileLines content).takeWhile fun line => (readLine line).isOk).countP fun line =>
    (entryOfLine line).isNone

def textOf (d : DayFiles) (name : String) : String :=
  (d.folder.files.get? name).getD ""

def corruptIn (d : DayFiles) (name : String) : Nat :=
  corruptLines (d.textOf name)

instance decidableHasDates (f : Filter) : Decidable f.HasDates :=
  decidable_of_iff (f.earliest ≠ some .invalid ∧ f.latest ≠ some .invalid)
    ⟨fun h => ⟨h.1, h.2⟩, fun h => ⟨h.earliest, h.latest⟩⟩

def asked (d : DayFiles) (f : Filter) : List String :=
  if f.HasDates then d.allNames.filter (wanted f) else []

/-- A query ends with these texts: one of them cannot be read to its end, or the limit is reached
with an entry of theirs. -/
def Ends (f : Filter) (contents : List String) : Prop :=
  (∃ content ∈ contents, ¬IsReadable content) ∨
    ∃ k < (contents.flatMap entriesOf).countP f.admits, reached f.limit? (k + 1)

instance decidableIsReadable (content : String) : Decidable (IsReadable content) :=
  inferInstanceAs (Decidable (∀ line ∈ fileLines content, _))

instance decidableEnds (f : Filter) (contents : List String) : Decidable (Ends f contents) :=
  inferInstanceAs (Decidable (_ ∨ _))

def openedBehind (d : DayFiles) (f : Filter) (newer : List String) : List String → List String
  | [] => []
  | name :: older =>
      if Ends f (newer.map d.textOf) then []
      else name :: d.openedBehind f (newer ++ [name]) older

def opened (d : DayFiles) (f : Filter) : List String :=
  d.openedBehind f [] (d.asked f)

def queries (d : DayFiles) (fs : List Filter) : DayFiles :=
  fs.foldl (fun d f => (d.query f).2) d

theorem readLines_snd (ls : List (List Char)) : (readLines ls).2 =
    (ls.takeWhile fun line => (readLine line).isOk).countP fun line =>
      (entryOfLine line).isNone := by
  induction ls with
  | nil => rfl
  | cons line ls ih =>
      rw [readLines]
      cases hline : readLine line with
      | error fault => simp [hline, Except.isOk, Except.toBool]
      | ok e? =>
          have hentry : entryOfLine line = e? := by
            rw [entryOfLine, hline]
            rfl
          cases e? with
          | none => simp [hline, hentry, ih, Except.isOk, Except.toBool]
          | some e => simp [hline, hentry, ih, Except.isOk, Except.toBool]

theorem readLines_of_readable {content : String} (h : IsReadable content) :
    readLines (fileLines content) = (.ok (entriesOf content), corruptLines content) :=
  Prod.ext (readLines_eq h) (readLines_snd _)

theorem readLines_of_unreadable {content : String} (h : ¬IsReadable content) :
    ∃ fault, readLines (fileLines content) = (.error fault, corruptLines content) := by
  cases hread : (readLines (fileLines content)).1 with
  | error fault => exact ⟨fault, Prod.ext hread (readLines_snd _)⟩
  | ok read =>
      refine absurd (isOk_of_readLines ?_) h
      rw [hread]
      rfl

theorem collect_stopped : (collect f found es).2 ↔
    ∃ k, found.length ≤ k ∧ k < found.length + es.countP f.admits ∧ reached f.limit? (k + 1) := by
  induction es generalizing found with
  | nil =>
      simp only [collect, List.countP_nil]
      grind
  | cons e es ih =>
      rw [collect]
      split
      case isFalse hadmits =>
        rw [List.countP_cons_of_neg hadmits]
        exact ih
      case isTrue hadmits =>
        rw [List.countP_cons_of_pos hadmits]
        split
        case isTrue hreached => exact iff_of_true rfl ⟨found.length, by omega, by omega, hreached⟩
        case isFalse hreached =>
          rw [ih, List.length_cons]
          constructor
          · rintro ⟨k, hlow, hhigh, hk⟩
            exact ⟨k, by omega, by omega, hk⟩
          · rintro ⟨k, hlow, hhigh, hk⟩
            have hne : k ≠ found.length := fun heq => hreached (heq ▸ hk)
            exact ⟨k, by omega, by omega, hk⟩

theorem length_collect (h : (collect f found es).2 = false) :
    (collect f found es).1.length = found.length + es.countP f.admits := by
  induction es generalizing found with
  | nil => rfl
  | cons e es ih =>
      rw [collect] at h ⊢
      split at h
      case isFalse hadmits =>
        rw [if_neg hadmits, List.countP_cons_of_neg hadmits]
        exact ih h
      case isTrue hadmits =>
        rw [if_pos hadmits, List.countP_cons_of_pos hadmits]
        split at h
        case isTrue hreached => cases h
        case isFalse hreached =>
          rw [if_neg hreached, ih h, List.length_cons]
          omega

theorem ends_append_iff {contents : List String} {content : String} (hgoes : ¬Ends f contents)
    (hread : IsReadable content)
    (hfound : found.length = (contents.flatMap entriesOf).countP f.admits) :
    Ends f (contents ++ [content]) ↔ (collect f found (entriesOf content)).2 := by
  have hcount : ((contents ++ [content]).flatMap entriesOf).countP f.admits =
      found.length + (entriesOf content).countP f.admits := by
    rw [List.flatMap_append, List.countP_append, hfound, List.flatMap_singleton]
  rw [collect_stopped, Ends, hcount]
  unfold Ends at hgoes
  rw [not_or, ← hfound] at hgoes
  constructor
  · rintro (⟨bad, hbad, hnot⟩ | ⟨k, hk, hreached⟩)
    · rcases List.mem_append.1 hbad with hbad | hbad
      · exact absurd ⟨bad, hbad, hnot⟩ hgoes.1
      · exact absurd (List.mem_singleton.1 hbad ▸ hread) hnot
    · have hlow : found.length ≤ k := by
        by_contra hlow
        exact hgoes.2 ⟨k, Nat.not_le.1 hlow, hreached⟩
      exact ⟨k, hlow, hk, hreached⟩
  · rintro ⟨k, -, hk, hreached⟩
    exact .inr ⟨k, hk, hreached⟩

theorem openedBehind_of_ends (h : Ends f (newer.map d.textOf)) :
    d.openedBehind f newer names = [] := by
  cases names with
  | nil => rfl
  | cons name names => rw [openedBehind, if_pos h]

theorem Ends.append {contents : List String} (h : Ends f contents) (more : List String) :
    Ends f (contents ++ more) := by
  rcases h with ⟨content, hcontent, hread⟩ | ⟨k, hk, hreached⟩
  · exact .inl ⟨content, List.mem_append_left _ hcontent, hread⟩
  · refine .inr ⟨k, ?_, hreached⟩
    rw [List.flatMap_append, List.countP_append]
    exact Nat.lt_add_right _ hk

theorem mem_openedBehind : name ∈ d.openedBehind f newer names ↔ ∃ before older,
    names = before ++ name :: older ∧ ¬Ends f ((newer ++ before).map d.textOf) := by
  induction names generalizing newer with
  | nil => simp [openedBehind]
  | cons first names ih =>
      by_cases hends : Ends f (newer.map d.textOf)
      · rw [openedBehind_of_ends hends]
        refine iff_of_false (List.not_mem_nil) ?_
        rintro ⟨before, older, -, hgoes⟩
        rw [List.map_append] at hgoes
        exact hgoes (hends.append _)
      · rw [openedBehind, if_neg hends, List.mem_cons, ih]
        constructor
        · rintro (rfl | ⟨before, older, rfl, hgoes⟩)
          · exact ⟨[], names, rfl, by simpa using hends⟩
          · exact ⟨first :: before, older, rfl, by simpa using hgoes⟩
        · rintro ⟨before, older, hnames, hgoes⟩
          cases before with
          | nil => exact .inl (List.cons.inj hnames).1.symm
          | cons head before =>
              obtain ⟨rfl, rfl⟩ := List.cons.inj hnames
              exact .inr ⟨before, older, rfl, by simpa using hgoes⟩

theorem mem_opened : name ∈ d.opened f ↔ ∃ newer older,
    d.asked f = newer ++ name :: older ∧ ¬Ends f (newer.map d.textOf) := by
  rw [opened, mem_openedBehind]
  simp

theorem collectFiles_snd (corrupt : Nat) (hgoes : ¬Ends f (newer.map d.textOf))
    (hfound : found.length = ((newer.map d.textOf).flatMap entriesOf).countP f.admits) :
    (collectFiles f found corrupt (names.map d.textOf)).2 =
      corrupt + ((d.openedBehind f newer names).map d.corruptIn).sum := by
  induction names generalizing newer found corrupt with
  | nil => rfl
  | cons name names ih =>
      have hmap : (newer ++ [name]).map d.textOf = newer.map d.textOf ++ [d.textOf name] := by simp
      rw [List.map_cons, collectFiles, openedBehind, if_neg hgoes, List.map_cons, List.sum_cons]
      by_cases hread : IsReadable (d.textOf name)
      · have hends := ends_append_iff hgoes hread hfound
        rw [← hmap] at hends
        rw [readLines_of_readable hread]
        cases hcollected : collect f found (entriesOf (d.textOf name)) with
        | mk found' stopped =>
            rw [hcollected] at hends
            cases stopped with
            | true => simp [hcollected, openedBehind_of_ends (hends.2 rfl), corruptIn]
            | false =>
                have hlength := length_collect (congrArg Prod.snd hcollected)
                rw [hcollected] at hlength
                have hfound' : found'.length =
                    (((newer ++ [name]).map d.textOf).flatMap entriesOf).countP f.admits := by
                  simp [hlength, hfound]
                simp only [hcollected]
                rw [ih _ (mt hends.1 (by simp)) hfound', Nat.add_assoc]
                rfl
      · obtain ⟨fault, hfault⟩ := readLines_of_unreadable hread
        have hends : Ends f ((newer ++ [name]).map d.textOf) := by
          rw [hmap]
          exact .inl ⟨_, by simp, hread⟩
        simp [hfault, openedBehind_of_ends hends, corruptIn]

theorem filterMap_get? (h : ∀ name ∈ names, name ∈ d.folder.files.names) :
    names.filterMap d.folder.files.get? = names.map d.textOf := by
  rw [← List.filterMap_eq_map]
  refine List.filterMap_congr fun name hname => ?_
  obtain ⟨content, hget⟩ := Option.isSome_iff_exists.1 (Named.isSome_get?.2 (h name hname))
  simp [textOf, hget]

theorem relevant_asked (hf : f.HasDates) (d : DayFiles) :
    d.relevant f = .ok ((d.asked f).map d.textOf) := by
  have hstored : ∀ name ∈ d.allNames.filter (wanted f), name ∈ d.folder.files.names := by
    intro name hname
    have hall := List.mem_of_mem_filter hname
    simp only [allNames, List.mem_reverse, Text.mem_sort, List.mem_filter] at hall
    exact hall.1
  rw [relevant_wanted hf, asked, if_pos hf, filterMap_get? hstored]

theorem relevant_undated (hf : ¬f.HasDates) (d : DayFiles) :
    ∃ fault, d.relevant f = .error fault := by
  unfold relevant
  by_cases hearliest : f.earliest = some .invalid
  · rw [hearliest]
    exact ⟨.invalidTime, rfl⟩
  · have hlatest : f.latest = some .invalid := by
      by_contra hlatest
      exact hf ⟨hearliest, hlatest⟩
    rw [mapM_dayOf_valid hearliest, hlatest]
    exact ⟨.invalidTime, rfl⟩

theorem corrupt_query (d : DayFiles) (f : Filter) :
    (d.query f).2.corrupt = d.corrupt + ((d.opened f).map d.corruptIn).sum := by
  by_cases hf : f.HasDates
  · have hempty : ¬Ends f (([] : List String).map d.textOf) := by simp [Ends]
    rw [query, relevant_asked hf]
    exact collectFiles_snd d.corrupt hempty rfl
  · obtain ⟨fault, hfault⟩ := relevant_undated hf d
    have hnone : d.opened f = [] := by
      rw [opened, asked, if_neg hf]
      rfl
    rw [query, hfault, hnone]
    rfl

theorem files_query (d : DayFiles) (f : Filter) :
    (d.query f).2.folder.files = d.folder.files := by
  rw [query]
  split <;> rfl

theorem opened_query (d : DayFiles) (f : Filter) : (d.query f).2.opened = d.opened := by
  have htext : (d.query f).2.textOf = d.textOf := by
    funext name
    rw [textOf, textOf, files_query]
  have hbehind (f' : Filter) (newer names : List String) :
      (d.query f).2.openedBehind f' newer names = d.openedBehind f' newer names := by
    induction names generalizing newer with
    | nil => rfl
    | cons name names ih => rw [openedBehind, openedBehind, htext, ih]
  funext f'
  rw [opened, opened, asked, asked, allNames, allNames, files_query, hbehind]

theorem corruptIn_query (d : DayFiles) (f : Filter) : (d.query f).2.corruptIn = d.corruptIn := by
  funext name
  rw [corruptIn, corruptIn, textOf, textOf, files_query]

theorem corrupt_queries (d : DayFiles) (fs : List Filter) :
    (d.queries fs).corrupt = d.corrupt + ((fs.flatMap d.opened).map d.corruptIn).sum := by
  induction fs generalizing d with
  | nil => rfl
  | cons f fs ih =>
      have hnext : d.queries (f :: fs) = (d.query f).2.queries fs := rfl
      rw [hnext, ih, corrupt_query, opened_query, corruptIn_query, List.flatMap_cons,
        List.map_append, List.sum_append, Nat.add_assoc]

theorem corrupt_of_queries (d : DayFiles) (fs : List Filter) :
    let openings := fs.flatMap d.opened
    (d.queries fs).corrupt =
        d.corrupt + ∑ name ∈ openings.toFinset, openings.count name * d.corruptIn name ∧
      ((d.queries fs).corrupt = d.corrupt + ∑ name ∈ openings.toFinset, d.corruptIn name ↔
        ∀ name, 1 < openings.count name → d.corruptIn name = 0) := by
  intro openings
  have hcount : (d.queries fs).corrupt =
      d.corrupt + ∑ name ∈ openings.toFinset, openings.count name * d.corruptIn name := by
    rw [corrupt_queries, Finset.sum_list_map_count]
    rfl
  refine ⟨hcount, ?_⟩
  have hle : ∀ name ∈ openings.toFinset,
      d.corruptIn name ≤ openings.count name * d.corruptIn name := by
    intro name hname
    exact Nat.le_mul_of_pos_left _ (List.count_pos_iff.2 (List.mem_toFinset.1 hname))
  rw [hcount, Nat.add_left_cancel_iff, eq_comm, Finset.sum_eq_sum_iff_of_le hle]
  constructor
  · intro h name htwice
    have hname : name ∈ openings := List.count_pos_iff.1 (Nat.lt_of_succ_lt htwice)
    have heq := h name (List.mem_toFinset.2 hname)
    by_contra hne
    exact absurd (Nat.eq_of_mul_eq_mul_right (Nat.pos_of_ne_zero hne) ((Nat.one_mul _).trans heq))
      (Nat.ne_of_lt htwice)
  · intro h name hname
    have hpos := List.count_pos_iff.2 (List.mem_toFinset.1 hname)
    rcases Nat.lt_or_eq_of_le hpos with htwice | honce
    · rw [h name htwice, Nat.mul_zero]
    · rw [← honce, Nat.one_mul]

open Damage in
theorem not_corrupt_once : ¬∀ (d : DayFiles) (fs : List Filter), d.corrupt = 0 →
    (d.queries fs).corrupt = ∑ name ∈ (fs.flatMap d.opened).toFinset, d.corruptIn name := by
  intro hclaim
  have htwice : ((torn "\n").queries [.all, .all]).corrupt = 2 := by decide +kernel
  have honce : ∑ name ∈ ([.all, .all].flatMap (torn "\n").opened).toFinset,
      (torn "\n").corruptIn name = 1 := by
    decide +kernel
  have hequal := hclaim (torn "\n") [.all, .all] rfl
  rw [htwice, honce] at hequal
  cases hequal

end ToolGate.DayFiles
