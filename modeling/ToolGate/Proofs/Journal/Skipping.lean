import ToolGate.Proofs.Journal.Listing

namespace ToolGate

variable {d : DayFiles} {f : Filter} {e : Entry} {t : Instant} {es : List Entry}
  {name day : String} {names : List String} {contents : List String}

def Instant.year (t : Instant) : Int :=
  (Day.ofNumber t.day).year

structure Filter.HasDates (f : Filter) : Prop where
  earliest : f.earliest ≠ some .invalid
  latest : f.latest ≠ some .invalid

namespace DayFiles

def Dated (d : DayFiles) : Prop :=
  ∀ name content, d.folder.files.get? name = some content →
    ∀ day, dayOfFile? name = some day → ∀ e ∈ entriesOf content, e.instant.dayText? = some day

def allNames (d : DayFiles) : List String :=
  (Text.sort (d.folder.files.names.filter fun name => (dayOfFile? name).isSome)).reverse

/-- Every day file is read, newest name first, and the entries that match are kept. -/
def scan (d : DayFiles) (f : Filter) : Except JournalFault (List Entry) := do
  let read ← (d.allNames.filterMap d.folder.files.get?).mapM fun content =>
    (readLines (fileLines content)).1
  return read.flatten.filter f.admits

theorem mapM_readLines_ok {read : List (List Entry)} :
    contents.mapM (fun content => (readLines (fileLines content)).1) = .ok read ↔
      (∀ content ∈ contents, IsReadable content) ∧ contents.map entriesOf = read := by
  induction contents generalizing read with
  | nil => simp [pure_ok]
  | cons content contents ih =>
      simp only [List.mapM_cons, bind_ok, pure_ok, ih, List.forall_mem_cons, List.map_cons]
      constructor
      · rintro ⟨first, hfirst, rest, ⟨hrest, rfl⟩, rfl⟩
        have hread : IsReadable content := isOk_of_readLines (by rw [hfirst]; rfl)
        have hentries := readLines_eq hread
        rw [hfirst] at hentries
        cases hentries
        exact ⟨⟨hread, hrest⟩, rfl⟩
      · rintro ⟨⟨hread, hrest⟩, rfl⟩
        exact ⟨_, readLines_eq hread, _, ⟨hrest, rfl⟩, rfl⟩

theorem scan_ok : d.scan f = .ok es ↔
    (∀ content ∈ d.allNames.filterMap d.folder.files.get?, IsReadable content) ∧
      ((d.allNames.filterMap d.folder.files.get?).flatMap entriesOf).filter f.admits = es := by
  simp only [scan, bind_ok, pure_ok, mapM_readLines_ok, List.flatMap_def]
  constructor
  · rintro ⟨read, ⟨hread, rfl⟩, rfl⟩
    exact ⟨hread, rfl⟩
  · rintro ⟨hread, rfl⟩
    exact ⟨_, ⟨hread, rfl⟩, rfl⟩

theorem legible_iff : d.Legible ↔
    ∀ content ∈ d.allNames.filterMap d.folder.files.get?, IsReadable content := by
  simp only [Legible, allNames, List.mem_filterMap, List.mem_reverse, Text.mem_sort,
    List.mem_filter, IsDayFile]
  constructor
  · rintro h content ⟨name, ⟨-, hday⟩, hget⟩
    exact h name content hget hday
  · intro h name content hget hday
    have hname := List.mem_map_of_mem (f := Prod.fst) (Named.mem_of_get? hget)
    exact h content ⟨name, ⟨hname, hday⟩, hget⟩

def wanted (f : Filter) (name : String) : Bool :=
  (dayOfFile? name).any
    (dayWithin (f.earliest.bind Instant.dayText?) (f.latest.bind Instant.dayText?))

theorem mapM_dayOf_valid {t? : Option Instant} (h : t? ≠ some .invalid) :
    t?.mapM dayOf = .ok (t?.bind Instant.dayText?) := by
  cases t? with
  | none => rfl
  | some t =>
      cases t with
      | invalid => exact absurd rfl h
      | «at» ms => rfl

theorem isSome_of_wanted (h : wanted f name) : (dayOfFile? name).isSome := by
  rw [wanted] at h
  cases hday : dayOfFile? name with
  | none => simp [hday] at h
  | some day => rfl

theorem relevant_wanted (hf : f.HasDates) (d : DayFiles) : d.relevant f =
    .ok ((d.allNames.filter (wanted f)).filterMap d.folder.files.get?) := by
  have hnames : d.folder.files.names.filter (wanted f) =
      (d.folder.files.names.filter fun name => (dayOfFile? name).isSome).filter (wanted f) := by
    rw [List.filter_filter]
    refine List.filter_congr fun name _ => ?_
    cases hwanted : wanted f name with
    | false => rfl
    | true => simp [isSome_of_wanted hwanted]
  have hrelevant : d.relevant f =
      .ok ((Text.sort (d.folder.files.names.filter (wanted f))).reverse.filterMap
        d.folder.files.get?) := by
    rw [relevant, mapM_dayOf_valid hf.earliest, mapM_dayOf_valid hf.latest]
    rfl
  rw [hrelevant, hnames, ← Text.filter_sort, ← List.filter_reverse]
  rfl

theorem filter_flatMap_wanted (h : ∀ name ∈ names, ¬wanted f name → ∀ content,
    d.folder.files.get? name = some content → (entriesOf content).filter f.admits = []) :
    (((names.filter (wanted f)).filterMap d.folder.files.get?).flatMap entriesOf).filter f.admits =
      ((names.filterMap d.folder.files.get?).flatMap entriesOf).filter f.admits := by
  induction names with
  | nil => rfl
  | cons name names ih =>
      obtain ⟨hname, hnames⟩ := List.forall_mem_cons.1 h
      have hrest := ih hnames
      by_cases hwanted : wanted f name
      · rw [List.filter_cons_of_pos hwanted]
        cases hget : d.folder.files.get? name with
        | none => simpa [List.filterMap_cons, hget] using hrest
        | some content => simpa [List.filterMap_cons, hget] using hrest
      · rw [List.filter_cons_of_neg hwanted, hrest]
        cases hget : d.folder.files.get? name with
        | none => simp [hget]
        | some content => simp [hget, hname hwanted content hget]

end DayFiles

namespace Instant

theorem isDigit_of_isDayText {cs : List Char} (h : DayFiles.isDayText cs) :
    ∃ c, cs.head? = some c ∧ c.isDigit := by
  unfold DayFiles.isDayText at h
  split at h
  · simp only [List.all_cons, Bool.and_eq_true] at h
    exact ⟨_, rfl, h.1⟩
  · cases h

theorem hasFourDigitYear_of_day (hvalid : t ≠ .invalid) (h : FourDigitYear t.day) :
    t.HasFourDigitYear := by
  cases t with
  | invalid => exact absurd rfl hvalid
  | «at» ms => exact h

theorem HasFourDigitYear.ne_invalid (h : t.HasFourDigitYear) : t ≠ .invalid := by
  rintro rfl
  exact h

theorem dayText?_signed {t : Instant} (hvalid : t ≠ .invalid) (h : ¬FourDigitYear t.day) :
    ∃ text, t.dayText? = some text ∧
      text.toList.head? = some (if t.year < 0 then '-' else '+') := by
  cases t with
  | invalid => exact absurd rfl hvalid
  | «at» ms =>
      have hyear : yearChars (Day.ofNumber (ms.fdiv msPerDay)).year =
          (if (Day.ofNumber (ms.fdiv msPerDay)).year < 0 then '-' else '+') ::
            padded 6 (Day.ofNumber (ms.fdiv msPerDay)).year.natAbs := if_neg h
      refine ⟨_, rfl, ?_⟩
      rw [String.toList_ofList, chars, Day.chars, hyear]
      rfl

theorem fourDigitYear_of_dayText? (h : t.dayText? = some day)
    (hday : DayFiles.isDayText day.toList) : t.HasFourDigitYear := by
  have hvalid : t ≠ .invalid := by
    rintro rfl
    cases h
  have hyear : FourDigitYear t.day := by
    by_contra hyear
    obtain ⟨text, htext, hfirst⟩ := dayText?_signed hvalid hyear
    rw [h] at htext
    cases htext
    obtain ⟨c, hc, hdigit⟩ := isDigit_of_isDayText hday
    rw [hfirst] at hc
    obtain rfl := Option.some.inj hc
    split at hdigit <;> cases hdigit
  exact hasFourDigitYear_of_day hvalid hyear

theorem signed_le {text : String} (hvalid : t ≠ .invalid) (h : ¬FourDigitYear t.day)
    (htext : t.dayText? = some text) (hday : DayFiles.isDayText day.toList) :
    Text.le text day ∧ Text.le day text = false := by
  obtain ⟨text', htext', hfirst⟩ := dayText?_signed hvalid h
  rw [htext] at htext'
  cases htext'
  obtain ⟨c, hc, hdigit⟩ := isDigit_of_isDayText hday
  obtain ⟨hlow, hhigh⟩ := toNat_of_isDigit hdigit
  refine Text.le_of_first hfirst hc (by omega) ?_
  split
  · exact Nat.lt_of_lt_of_le (by decide) hlow
  · exact Nat.lt_of_lt_of_le (by decide) hlow

theorem day_lt_of_year_lt {n m : Int} (h : (Day.ofNumber n).year < (Day.ofNumber m).year) : n < m := by
  rcases Int.lt_trichotomy n m with hlt | rfl | hlt
  · exact hlt
  · exact absurd h (Int.lt_irrefl _)
  · have hearlier := Day.ofNumber_earlier hlt
    unfold Day.Earlier at hearlier
    omega

theorem before_of_day_lt {a b : Instant} (ha : a ≠ .invalid) (hb : b ≠ .invalid)
    (h : a.day < b.day) : a.before b := by
  cases a with
  | invalid => exact absurd rfl ha
  | «at» x =>
      cases b with
      | invalid => exact absurd rfl hb
      | «at» y =>
          simp only [day, fdiv_msPerDay] at h
          simp only [before, decide_eq_true_eq]
          omega

end Instant

namespace DayFiles

theorem isDayText_of_dayOfFile? (h : dayOfFile? name = some day) : isDayText day.toList := by
  unfold dayOfFile? at h
  obtain ⟨⟨-, hday⟩, heq⟩ := Option.ite_none_right_eq_some.1 h
  cases heq
  exact hday

theorem admits_within (h : f.admits e) :
    (∀ t, f.earliest = some t → e.instant.before t = false) ∧
      ∀ t, f.latest = some t → t.before e.instant = false := by
  simp only [Filter.admits, Bool.and_eq_true] at h
  obtain ⟨⟨⟨⟨⟨hearliest, hlatest⟩, -⟩, -⟩, -⟩, -⟩ := h
  constructor
  · intro t ht
    simpa [ht] using hearliest
  · intro t ht
    simpa [ht] using hlatest

theorem wanted_of_admits (hf : f.HasDates) (hyears : ∀ t, f.latest = some t → t.year ≤ 9999)
    (hname : dayOfFile? name = some day) (hday : e.instant.dayText? = some day)
    (h : f.admits e) : wanted f name := by
  have htext := isDayText_of_dayOfFile? hname
  have he := Instant.fourDigitYear_of_dayText? hday htext
  obtain rfl : dayText e.instant.day = day := Option.some.inj (he.dayText?_eq.symm.trans hday)
  obtain ⟨hearliest, hlatest⟩ := admits_within h
  rw [wanted, hname, Option.any_some, dayWithin, Bool.and_eq_true]
  constructor
  · cases ht : f.earliest with
    | none => rfl
    | some t =>
        have hvalid : t ≠ .invalid := fun heq => hf.earliest (heq ▸ ht)
        by_cases hyear : FourDigitYear t.day
        · have hyear := Instant.hasFourDigitYear_of_day hvalid hyear
          rw [Option.bind_some, hyear.dayText?_eq, Option.all_some]
          exact hyear.day.le_dayText he.day (day_le_of_not_before hyear he (hearliest t ht))
        · obtain ⟨text, hsigned, -⟩ := Instant.dayText?_signed hvalid hyear
          rw [Option.bind_some, hsigned, Option.all_some]
          exact (Instant.signed_le hvalid hyear hsigned htext).1
  · cases ht : f.latest with
    | none => rfl
    | some t =>
        have hvalid : t ≠ .invalid := fun heq => hf.latest (heq ▸ ht)
        have hbefore := hlatest t ht
        by_cases hyear : FourDigitYear t.day
        · have hyear := Instant.hasFourDigitYear_of_day hvalid hyear
          rw [Option.bind_some, hyear.dayText?_eq, Option.all_some]
          exact he.day.le_dayText hyear.day (day_le_of_not_before he hyear hbefore)
        · -- with the years beyond 9999 excluded, the filter ends before the entry
          have hnegative : t.year < 0 := by
            by_contra hpositive
            exact hyear ⟨Int.not_lt.1 hpositive, hyears t ht⟩
          have hlt := Instant.day_lt_of_year_lt (Int.lt_of_lt_of_le hnegative he.day.1)
          have hafter := Instant.before_of_day_lt hvalid he.ne_invalid hlt
          rw [hbefore] at hafter
          cases hafter

theorem not_wanted_of_beyond (ht : f.latest = some t) (hvalid : t ≠ .invalid)
    (hyear : 9999 < t.year) (name : String) : wanted f name = false := by
  have hdigits : ¬FourDigitYear t.day := fun h => absurd h.2 (Int.not_le.2 hyear)
  obtain ⟨text, htext, -⟩ := Instant.dayText?_signed hvalid hdigits
  cases hname : dayOfFile? name with
  | none => simp [wanted, hname]
  | some day =>
      have hle := (Instant.signed_le hvalid hdigits htext (isDayText_of_dayOfFile? hname)).2
      simp [wanted, hname, ht, dayWithin, htext, hle]

theorem query_of_beyond (hf : f.HasDates) (ht : f.latest = some t) (hyear : 9999 < t.year) :
    (d.query f).1 = .ok [] := by
  have hvalid : t ≠ .invalid := fun heq => hf.latest (heq ▸ ht)
  have hnone : d.allNames.filter (wanted f) = [] := by
    refine List.filter_eq_nil_iff.2 fun name _ => ?_
    simp [not_wanted_of_beyond ht hvalid hyear]
  rw [query, relevant_wanted hf, hnone]
  rfl

theorem query_of_scan (hd : d.Dated) (hf : f.HasDates) (hlimit : f.limit = none)
    (hyears : ∀ t, f.latest = some t → t.year ≤ 9999) (h : d.scan f = .ok es) :
    (d.query f).1 = .ok es := by
  obtain ⟨hread, rfl⟩ := scan_ok.1 h
  have hwhole : f.HasWholeLimit := by
    intro x hx
    rw [hlimit] at hx
    cases hx
  have hopened : ∀ content ∈ (d.allNames.filter (wanted f)).filterMap d.folder.files.get?,
      IsReadable content := by
    intro content hcontent
    obtain ⟨name, hname, hget⟩ := List.mem_filterMap.1 hcontent
    exact hread content (List.mem_filterMap.2 ⟨name, List.mem_of_mem_filter hname, hget⟩)
  have hskipped : ∀ name ∈ d.allNames, ¬wanted f name → ∀ content,
      d.folder.files.get? name = some content → (entriesOf content).filter f.admits = [] := by
    intro name hname hwanted content hget
    simp only [allNames, List.mem_reverse, Text.mem_sort, List.mem_filter] at hname
    obtain ⟨day, hday⟩ := Option.isSome_iff_exists.1 hname.2
    refine List.filter_eq_nil_iff.2 fun e he hadmits => hwanted ?_
    exact wanted_of_admits hf hyears hday (hd name content hget day hday e he) hadmits
  rw [query_of_relevant hwhole (relevant_wanted hf d) hopened, f.cut_of_no_limit hlimit,
    filter_flatMap_wanted hskipped]

theorem query_eq_scan (hd : d.Dated) (hf : f.HasDates) (hlimit : f.limit = none) :
    ((∃ es, d.scan f = .ok es) ↔ d.Legible) ∧
      ((∀ t, f.latest = some t → t.year ≤ 9999) →
        ∀ es, d.scan f = .ok es → (d.query f).1 = .ok es) ∧
      ∀ t, f.latest = some t → 9999 < t.year → (d.query f).1 = .ok [] := by
  refine ⟨?_, fun hyears es hscan => query_of_scan hd hf hlimit hyears hscan,
    fun t ht hyear => query_of_beyond hf ht hyear⟩
  rw [legible_iff]
  constructor
  · rintro ⟨es, hscan⟩
    exact (scan_ok.1 hscan).1
  · intro hread
    exact ⟨_, scan_ok.2 ⟨hread, rfl⟩⟩

namespace Skipping

def content : String := Damage.entry.json.text ++ "\n"

def kept : DayFiles := ⟨.holding "audit" [("audit-1970-01-01.jsonl", content)], 0⟩

def ending (t : Instant) : Filter :=
  { Filter.all with earliest := some (.at (-8640000000000000)), latest := some t }

theorem keeps_content : Keeps content [Damage.entry] := by
  have hline := keeps_empty.addLine Damage.storable_entry
  rwa [String.empty_append, List.nil_append] at hline

theorem get?_kept {text : String} (h : kept.folder.files.get? name = some text) :
    name = "audit-1970-01-01.jsonl" ∧ text = content := by
  have hmem := Named.mem_of_get? h
  simpa [kept, Folder.holding] using hmem

theorem dated_kept : kept.Dated := by
  intro name text hget day hday e he
  obtain ⟨rfl, rfl⟩ := get?_kept hget
  have hfirst : dayOfFile? "audit-1970-01-01.jsonl" = some "1970-01-01" := by decide +kernel
  rw [hfirst] at hday
  cases hday
  rw [keeps_content.entries, List.mem_singleton] at he
  rw [he]
  decide +kernel

theorem scan_kept (h : f.admits Damage.entry) : kept.scan f = .ok [Damage.entry] := by
  have hcontents : kept.allNames.filterMap kept.folder.files.get? = [content] := by
    decide +kernel
  refine scan_ok.2 ⟨?_, ?_⟩
  · rw [hcontents, List.forall_mem_singleton]
    exact keeps_content.readable
  · rw [hcontents, List.flatMap_singleton, keeps_content.entries]
    simp [h]

theorem hasDates_ending (ms : Int) : (ending (.at ms)).HasDates :=
  ⟨by simp [ending], by simp [ending]⟩

end Skipping

open Skipping in
theorem query_eq_scan_of_first_day :
    (kept.query (ending (.at 0))).1 = .ok [Damage.entry] := by
  obtain ⟨-, hscan, -⟩ := query_eq_scan dated_kept (hasDates_ending 0) rfl
  refine hscan (fun t ht => ?_) _ (scan_kept (by decide +kernel))
  cases ht
  decide +kernel

open Skipping in
theorem not_query_eq_scan : ¬∀ (d : DayFiles) (f : Filter), d.Dated → f.HasDates →
    f.limit = none → ∀ es, d.scan f = .ok es → (d.query f).1 = .ok es := by
  intro hclaim
  have hquery := hclaim kept (ending (.at 8640000000000000)) dated_kept (hasDates_ending _) rfl _
    (scan_kept (by decide +kernel))
  rw [query_of_beyond (hasDates_ending _) rfl (by decide +kernel)] at hquery
  cases hquery

end DayFiles

end ToolGate
