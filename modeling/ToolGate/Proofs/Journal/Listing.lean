import ToolGate.Proofs.Journal.Damage
import ToolGate.Proofs.Journal.NewestFirst

namespace ToolGate

open DayFiles

variable {d d' : DayFiles} {e k : Entry} {es kept listing : List Entry} {f : Filter} {days : List Int}

structure DayFiles.Keeps (content : String) (es : List Entry) : Prop where
  entries : entriesOf content = es
  readable : IsReadable content
  ended : lastLine content.toList = []

theorem DayFiles.keeps_empty : Keeps "" [] where
  entries := rfl
  readable := by
    intro line hline
    cases hline
  ended := rfl

theorem DayFiles.Keeps.addLine {content : String} (h : Keeps content es) (hk : k.Storable) :
    Keeps (content ++ k.json.text ++ "\n") (es ++ [k]) where
  entries := by
    rw [hk.entriesOf_addLine (by simp [h.ended]), h.entries]
  readable := hk.isReadable_addLine h.readable
  ended := lastLine_addLine content k.json.text

structure DayFiles.Files (d : DayFiles) (kept : List Entry) : Prop where
  storable : ∀ e ∈ kept, e.Storable
  distinct : d.folder.files.names.Nodup
  named : ∀ name ∈ d.folder.files.names, ∃ e ∈ kept, name = dayName e.instant.day
  holds : ∀ n, FourDigitYear n → Keeps (d.contentOf n) (kept.filter (·.instant.day = n))

theorem FourDigitYear.dayName_injective {n m : Int} (hn : FourDigitYear n) (hm : FourDigitYear m)
    (h : dayName n = dayName m) : n = m := by
  have hday := hn.dayOfFile?_dayName
  rw [h, hm.dayOfFile?_dayName] at hday
  exact hn.injective hm (Option.some.inj hday).symm

structure Filter.HasFourDigitYears (f : Filter) : Prop where
  earliest : ∀ t, f.earliest = some t → t.HasFourDigitYear
  latest : ∀ t, f.latest = some t → t.HasFourDigitYear

namespace DayFiles

theorem files_of_empty (h : d.folder.files = []) : d.Files [] where
  storable := by simp
  distinct := by
    rw [h]
    exact .nil
  named := by simp [h, Named.names]
  holds n _ := by
    rw [contentOf, h]
    exact keeps_empty

theorem Files.addLine (h : d.Files kept) (hk : k.Storable) :
    (d.make.addLine (dayName k.instant.day) k.json.text).Files (kept ++ [k]) where
  storable e he := by
    obtain he | he := List.mem_append.1 he
    · exact h.storable e he
    · rwa [List.mem_singleton.1 he]
  distinct := Named.nodup_put h.distinct _ _
  named name hname := by
    obtain hname | rfl := Named.mem_names_put hname
    · obtain ⟨e, he, rfl⟩ := h.named name hname
      exact ⟨e, List.mem_append_left _ he, rfl⟩
    · exact ⟨k, by simp, rfl⟩
  holds n hn := by
    have hday := hk.year.day
    rw [List.filter_append]
    by_cases hkn : k.instant.day = n
    · subst hkn
      have hkeeps := (h.holds _ hday).addLine hk
      rw [contentOf, get?_addLine, if_pos rfl]
      rw [contentOf] at hkeeps
      simpa using hkeeps
    · have hother : dayName k.instant.day ≠ dayName n :=
        fun heq => hkn (hday.dayName_injective hn heq)
      have hkeeps := h.holds n hn
      rw [contentOf, get?_addLine, if_neg hother]
      rw [contentOf] at hkeeps
      simpa [hkn] using hkeeps

theorem Files.mem_names (h : d.Files kept) (he : e ∈ kept) :
    dayName e.instant.day ∈ d.folder.files.names := by
  by_contra hname
  have hkeeps := (h.holds _ (h.storable e he).year.day).entries
  rw [contentOf, Named.get?_eq_none.2 hname] at hkeeps
  have hmem : e ∈ kept.filter (·.instant.day = e.instant.day) := by simpa using he
  rw [← hkeeps] at hmem
  cases hmem

theorem mapM_dayOf {t? : Option Instant} (h : ∀ t, t? = some t → t.HasFourDigitYear) :
    t?.mapM dayOf = .ok (t?.map fun t => dayText t.day) := by
  cases t? with
  | none => rfl
  | some t =>
      rw [Option.mapM_some, dayOf_ok (h t rfl)]
      rfl

theorem day_le_of_not_before {a b : Instant} (ha : a.HasFourDigitYear) (hb : b.HasFourDigitYear)
    (h : b.before a = false) : a.day ≤ b.day := by
  cases a with
  | invalid => exact ha.elim
  | «at» x =>
      cases b with
      | invalid => exact hb.elim
      | «at» y =>
          simp only [Instant.before, decide_eq_false_iff_not, Int.not_lt] at h
          simp only [Instant.day, Instant.fdiv_msPerDay]
          omega

def asksFor (f : Filter) (name : String) : Bool :=
  (dayOfFile? name).any
    (dayWithin (f.earliest.map fun t => dayText t.day) (f.latest.map fun t => dayText t.day))

theorem relevant_eq (hf : f.HasFourDigitYears) (d : DayFiles) : d.relevant f =
    .ok ((Text.sort (d.folder.files.names.filter (asksFor f))).reverse.filterMap fun name =>
      d.folder.files.get? name) := by
  rw [DayFiles.relevant, mapM_dayOf hf.earliest, mapM_dayOf hf.latest]
  rfl

theorem asksFor_of_admits (hf : f.HasFourDigitYears) (he : e.Storable) (h : f.admits e) :
    asksFor f (dayName e.instant.day) := by
  simp only [Filter.admits, Bool.and_eq_true] at h
  obtain ⟨⟨⟨⟨⟨hearliest, hlatest⟩, -⟩, -⟩, -⟩, -⟩ := h
  rw [asksFor, he.year.day.dayOfFile?_dayName, Option.any_some, dayWithin, Bool.and_eq_true]
  constructor
  · cases ht : f.earliest with
    | none => rfl
    | some t =>
        have hyear := hf.earliest t ht
        rw [ht] at hearliest
        rw [Option.map_some, Option.all_some]
        exact hyear.day.le_dayText he.year.day
          (day_le_of_not_before hyear he.year (by simpa using hearliest))
  · cases ht : f.latest with
    | none => rfl
    | some t =>
        have hyear := hf.latest t ht
        rw [ht] at hlatest
        rw [Option.map_some, Option.all_some]
        exact he.year.day.le_dayText hyear.day
          (day_le_of_not_before he.year hyear (by simpa using hlatest))

theorem exists_days {names : List String}
    (h : ∀ name ∈ names, ∃ n, FourDigitYear n ∧ name = dayName n) :
    ∃ days : List Int, (∀ n ∈ days, FourDigitYear n) ∧ names = days.map dayName := by
  induction names with
  | nil => exact ⟨[], by simp, rfl⟩
  | cons name names ih =>
      obtain ⟨⟨n, hn, hname⟩, hnames⟩ := List.forall_mem_cons.1 h
      obtain ⟨days, hdays, hrest⟩ := ih hnames
      refine ⟨n :: days, List.forall_mem_cons.2 ⟨hn, hdays⟩, ?_⟩
      rw [List.map_cons, hname, hrest]

theorem Files.relevant (h : d.Files kept) (hf : f.HasFourDigitYears) : ∃ days : List Int,
    d.relevant f = .ok (days.map d.contentOf) ∧ days.Pairwise (· > ·) ∧
      (∀ n ∈ days, FourDigitYear n) ∧ ∀ e ∈ kept, f.admits e → e.instant.day ∈ days := by
  have hrelevant := relevant_eq hf d
  generalize hnames : (Text.sort (d.folder.files.names.filter (asksFor f))).reverse = names
    at hrelevant
  have hmem (name : String) : name ∈ names ↔ name ∈ d.folder.files.names ∧ asksFor f name := by
    rw [← hnames, List.mem_reverse, Text.mem_sort, List.mem_filter]
  have hsorted : names.Pairwise fun a b => Text.le b a := by
    rw [← hnames, List.pairwise_reverse]
    exact Text.pairwise_sort _
  have hdistinct : names.Nodup := by
    rw [← hnames, (List.reverse_perm _).nodup_iff]
    exact (Text.sort_perm _).nodup_iff.2 (h.distinct.filter _)
  have hnamed : ∀ name ∈ names, ∃ n, FourDigitYear n ∧ name = dayName n := by
    intro name hname
    obtain ⟨e, he, rfl⟩ := h.named name ((hmem name).1 hname).1
    exact ⟨_, (h.storable e he).year.day, rfl⟩
  obtain ⟨days, hdays, rfl⟩ := exists_days hnamed
  refine ⟨days, ?_, ?_, hdays, ?_⟩
  · have hget : ∀ n ∈ days, d.folder.files.get? (dayName n) = some (d.contentOf n) := by
      intro n hn
      obtain ⟨hname, -⟩ := (hmem (dayName n)).1 (List.mem_map_of_mem hn)
      cases hget : d.folder.files.get? (dayName n) with
      | none => exact absurd hname (Named.get?_eq_none.1 hget)
      | some content =>
          rw [contentOf, hget]
          rfl
    have hsome : days.filterMap (fun n => some (d.contentOf n)) = days.map d.contentOf :=
      congrFun List.filterMap_eq_map' days
    rw [hrelevant, List.filterMap_map]
    exact congrArg Except.ok ((List.filterMap_congr hget).trans hsome)
  · rw [List.pairwise_map] at hsorted
    rw [List.Nodup, List.pairwise_map] at hdistinct
    refine (hsorted.and hdistinct).imp_of_mem fun ha hb hab => ?_
    exact (hdays _ hb).lt_of_le_dayName (hdays _ ha) (fun heq => hab.2 (congrArg dayName heq.symm))
      hab.1
  · intro e he hadmits
    have hstorable := h.storable e he
    obtain ⟨n, hn, hname⟩ := List.mem_map.1
      ((hmem _).2 ⟨h.mem_names he, asksFor_of_admits hf hstorable hadmits⟩)
    rwa [← (hdays n hn).dayName_injective hstorable.year.day hname]

theorem Files.query (h : d.Files kept) (hf : f.HasFourDigitYears) (hlimit : f.HasWholeLimit) :
    ∃ listing, NewestFirst (kept.filter f.admits) listing ∧
      (d.query f).1 = .ok (f.cut listing) := by
  obtain ⟨days, hrelevant, hdays, hyears, hmatching⟩ := h.relevant hf
  have hread : ∀ content ∈ days.map d.contentOf, IsReadable content := by
    intro content hcontent
    obtain ⟨n, hn, rfl⟩ := List.mem_map.1 hcontent
    exact (h.holds n (hyears n hn)).readable
  have hentries : (days.map d.contentOf).flatMap entriesOf = byDays days kept := by
    rw [List.flatMap_map, byDays]
    exact List.flatMap_congr fun n hn => (h.holds n (hyears n hn)).entries
  refine ⟨_, newestFirst_byDays hdays hmatching, ?_⟩
  rw [query_of_relevant hlimit hrelevant hread, hentries]

end DayFiles

def Json.IsScalar : Json Text.Wide → Prop
  | .arr _ | .obj _ => False
  | _ => True

theorem Json.IsScalar.hasText {v : Json Text.Wide} (h : v.IsScalar) : Entry.hasText v := by
  cases v with
  | arr items => exact h.elim
  | obj members => exact h.elim
  | _ => rfl

structure Entry.Keepable (e : Entry) : Prop extends e.Storable where
  message : ∀ ms, e.metadata = some ms → ∀ v, ms.get? "errorMessage" = some v → v.IsScalar

theorem Entry.Keepable.exists_sanitized (h : e.Keepable) : ∃ k, e.sanitized = .ok k := by
  cases hms : e.metadata with
  | none => exact ⟨e, sanitized_ok.2 (.inl ⟨hms, rfl⟩)⟩
  | some ms =>
      obtain ⟨ms', hclean⟩ := exists_cleanMetadata fun v hv => (h.message ms hms v hv).hasText
      exact ⟨_, sanitized_ok.2 (.inr ⟨ms, ms', hms, hclean, rfl⟩)⟩

theorem exists_sanitizedAll (h : ∀ e ∈ es, e.Keepable) :
    ∃ kept, List.Forall₂ (fun e k => e.sanitized = .ok k) es kept := by
  induction es with
  | nil => exact ⟨[], .nil⟩
  | cons e es ih =>
      obtain ⟨he, hes⟩ := List.forall_mem_cons.1 h
      obtain ⟨k, hk⟩ := he.exists_sanitized
      obtain ⟨kept, hkept⟩ := ih hes
      exact ⟨k :: kept, .cons hk hkept⟩

theorem Filter.cut_of_no_limit (h : f.limit = none) (es : List Entry) : f.cut es = es := by
  rw [cut, h]
  rfl

namespace Store

def appendAll (s : Store) : List Entry → Except JournalFault Unit × Store
  | [] => (.ok (), s)
  | e :: es =>
      match s.append e with
      | (.error fault, s) => (.error fault, s)
      | (.ok (), s) => s.appendAll es

variable {s s' : Store}

theorem appendAll_cons (h : s.append e = (.ok (), s')) (es : List Entry) :
    s.appendAll (e :: es) = s'.appendAll es := by
  rw [appendAll, h]

theorem appendAll_memory (h : List.Forall₂ (fun e k => e.sanitized = .ok k) es kept)
    (before : List Entry) :
    (memory before).appendAll es = (.ok (), .memory (before ++ kept)) := by
  induction h generalizing before with
  | nil => simp [appendAll]
  | @cons e k es kept hk _ ih =>
      have happend : (memory before).append e = (.ok (), .memory (before ++ [k])) := by
        simp [append, hk]
      rw [appendAll_cons happend, ih]
      simp

theorem appendAll_dayFiles (h : List.Forall₂ (fun e k => e.sanitized = .ok k) es kept)
    (hes : ∀ e ∈ es, e.Storable) {before : List Entry} (hd : d.Files before) :
    ∃ d', (dayFiles d).appendAll es = (.ok (), .dayFiles d') ∧ d'.Files (before ++ kept) := by
  induction h generalizing d before with
  | nil => exact ⟨d, rfl, by simpa using hd⟩
  | @cons e k es kept hk _ ih =>
      obtain ⟨he, hes⟩ := List.forall_mem_cons.1 hes
      have happend : (dayFiles d).append e = (.ok (),
          .dayFiles (d.make.addLine (dayName k.instant.day) k.json.text)) := by
        rw [append, (append_ok he).2 ⟨k, hk, rfl⟩, instant_of_sanitized hk]
      obtain ⟨d', hrest, hfiles⟩ := ih hes (hd.addLine (he.sanitized hk))
      refine ⟨d', (appendAll_cons happend es).trans hrest, ?_⟩
      simpa using hfiles

theorem dayFiles_list (path : String) (made : Bool) (corrupt : Nat) (hes : ∀ e ∈ es, e.Keepable)
    (hf : f.HasFourDigitYears) (hlimit : f.HasWholeLimit) :
    ∃ kept s m listing, List.Forall₂ (fun e k => e.sanitized = .ok k) es kept ∧
      (dayFiles ⟨⟨path, made, []⟩, corrupt⟩).appendAll es = (.ok (), s) ∧
      (memory []).appendAll es = (.ok (), m) ∧
      NewestFirst (kept.filter f.admits) listing ∧ (s.query f).1 = .ok (f.cut listing) ∧
      (f.limit = none → (s.query f).1 = .ok listing ∧
        ∃ found, (m.query f).1 = .ok found ∧ listing.Perm found) := by
  obtain ⟨kept, hkept⟩ := exists_sanitizedAll hes
  obtain ⟨d', happended, hfiles⟩ := appendAll_dayFiles hkept (fun e he => (hes e he).toStorable)
    (d := ⟨⟨path, made, []⟩, corrupt⟩) (files_of_empty rfl)
  obtain ⟨listing, hlisting, hquery⟩ := hfiles.query hf hlimit
  rw [List.nil_append] at hlisting
  refine ⟨kept, _, _, listing, hkept, happended, appendAll_memory hkept [], hlisting, hquery,
    fun hnone => ⟨?_, _, ?_, hlisting.perm⟩⟩
  · rwa [f.cut_of_no_limit hnone] at hquery
  · simp [query, Filter.limit?, hnone, limited]

namespace Listing

def noted (id : String) (ms : Int) : Entry :=
  ⟨id, .at ms, .decision, "deny", .alert, some "exec-1", none, some [("tool", .str "send")]⟩

def midnight : List Entry :=
  [noted "before" 86399999, noted "after" 86400000]

def newest : Filter := { Filter.all with earliest := some (.at 0), limit := some 1 }

theorem keepable_noted (id : String) {ms : Int} (h : FourDigitYear (ms.fdiv msPerDay)) :
    (noted id ms).Keepable where
  year := h
  metadata ns hns := by
    cases hns
    exact Json.plain_obj.1 (.obj (by decide) (by decide) (by simp [Json.Plain.str]))
  message ns hns v hv := by
    cases hns
    cases hv

end Listing

open Listing in
theorem dayFiles_list_of_midnight :
    ∃ s, (dayFiles ⟨.new "audit", 0⟩).appendAll midnight = (.ok (), s) ∧
      (s.query newest).1 = .ok [noted "after" 86400000] := by
  have hkeepable : ∀ e ∈ midnight, e.Keepable := by
    simp only [midnight, List.forall_mem_cons]
    exact ⟨keepable_noted _ ⟨by decide, by decide⟩, keepable_noted _ ⟨by decide, by decide⟩, by simp⟩
  have hyears : newest.HasFourDigitYears :=
    ⟨fun t ht => by cases ht; exact ⟨by decide, by decide⟩, fun t ht => by cases ht⟩
  have hlimit : newest.HasWholeLimit := by
    intro x hx
    obtain rfl : 1 = x := Option.some.inj hx
    exact ⟨1, by decide +kernel, by decide⟩
  obtain ⟨kept, s, m, listing, hkept, hs, -, hlisting, hquery, -⟩ :=
    dayFiles_list "audit" false 0 hkeepable hyears hlimit
  obtain rfl : midnight = kept := by
    obtain _ | ⟨hbefore, _ | ⟨hafter, hnone⟩⟩ := hkept
    cases hbefore
    cases hafter
    cases hnone
    rfl
  have hmatching : midnight.filter newest.admits = midnight := rfl
  rw [hmatching] at hlisting
  have hreverse : NewestFirst midnight midnight.reverse := by
    refine ⟨List.reverse_perm _, ?_, fun n => ?_⟩
    · have hlater : (noted "before" 86399999).instant.day ≤ (noted "after" 86400000).instant.day := by
        decide
      simpa [midnight] using hlater
    · have hbefore : (noted "before" 86399999).instant.day = 0 := by decide
      have hafter : (noted "after" 86400000).instant.day = 1 := by decide
      by_cases hn : 0 = n <;> by_cases hn' : 1 = n <;>
        simp [midnight, hbefore, hafter, hn, hn']
      omega
  have hone : newest.limit.bind Number.natural? = some 1 := by decide +kernel
  rw [hlisting.unique hreverse, Filter.cut, hone] at hquery
  exact ⟨s, hs, hquery⟩

end Store

end ToolGate
