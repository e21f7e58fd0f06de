import ToolGate.Proofs.Journal.Filing

namespace ToolGate

open Json.Token (blank)

variable {d d' : DayFiles} {e k x : Entry} {f : Filter}

theorem instant_of_sanitized (h : e.sanitized = .ok k) : k.instant = e.instant := by
  obtain ⟨-, rfl⟩ | ⟨ms, ms', -, -, rfl⟩ := sanitized_ok.1 h <;> rfl

namespace DayFiles

theorem dayOf_ok {t : Instant} (h : t.HasFourDigitYear) : dayOf t = .ok (dayText t.day) := by
  rw [dayOf, h.dayText?_eq]

theorem append_ok (he : e.Storable) : d.append e = (.ok (), d') ↔ ∃ k, e.sanitized = .ok k ∧
    d.make.addLine (dayName e.instant.day) k.json.text = d' := by
  unfold append
  cases hclean : e.sanitized with
  | error f => simp
  | ok k =>
      have hday : dayOf k.instant = .ok (dayText e.instant.day) := by
        rw [instant_of_sanitized hclean, dayOf_ok he.year]
      simp [hday, dayName]

def contentOf (d : DayFiles) (day : Int) : String :=
  (d.folder.files.get? (dayName day)).getD ""

def openLine (d : DayFiles) (day : Int) : List Char :=
  lastLine (d.contentOf day).toList

def IsDayFile (name : String) : Prop :=
  (dayOfFile? name).isSome

def Legible (d : DayFiles) : Prop :=
  ∀ name content, d.folder.files.get? name = some content → IsDayFile name → IsReadable content

def Holds (d : DayFiles) (e : Entry) : Prop :=
  ∃ name content, d.folder.files.get? name = some content ∧ IsDayFile name ∧ e ∈ entriesOf content

theorem exists_relevant (d : DayFiles) : ∃ contents, d.relevant .all = .ok contents ∧
    ∀ content, content ∈ contents ↔
      ∃ name, d.folder.files.get? name = some content ∧ IsDayFile name := by
  have hany (name : String) : (dayOfFile? name).any (dayWithin none none) ↔ IsDayFile name := by
    rw [IsDayFile]
    cases dayOfFile? name <;> simp [dayWithin]
  refine ⟨_, rfl, fun content => ?_⟩
  simp only [List.mem_filterMap, List.mem_reverse, Text.mem_sort, List.mem_filter]
  constructor
  · rintro ⟨name, ⟨-, hday⟩, hget⟩
    exact ⟨name, hget, (hany name).1 hday⟩
  · rintro ⟨name, hget, hday⟩
    have hname := List.mem_map_of_mem (f := Prod.fst) (Named.mem_of_get? hget)
    exact ⟨name, ⟨hname, (hany name).2 hday⟩, hget⟩

theorem query_all (h : d.Legible) : ∃ found, (d.query .all).1 = .ok found ∧
    ∀ e, e ∈ found ↔ d.Holds e := by
  obtain ⟨contents, hrelevant, hmem⟩ := d.exists_relevant
  have hlimit : Filter.all.HasWholeLimit := by
    intro x hx
    cases hx
  have hread : ∀ content ∈ contents, IsReadable content := by
    intro content hcontent
    obtain ⟨name, hget, hday⟩ := (hmem content).1 hcontent
    exact h name content hget hday
  have hadmits (es : List Entry) : es.filter Filter.all.admits = es :=
    List.filter_eq_self.2 fun e _ => rfl
  refine ⟨contents.flatMap entriesOf, ?_, fun e => ?_⟩
  · rw [query_of_relevant hlimit hrelevant hread, hadmits]
    rfl
  · simp only [List.mem_flatMap, hmem, Holds]
    constructor
    · rintro ⟨content, ⟨name, hget, hday⟩, he⟩
      exact ⟨name, content, hget, hday, he⟩
    · rintro ⟨name, content, hget, hday, he⟩
      exact ⟨content, ⟨name, hget, hday⟩, he⟩

theorem legible_of_query (h : (d.query .all).1.isOk) : d.Legible := by
  obtain ⟨contents, hrelevant, hmem⟩ := d.exists_relevant
  have hcollected : (collectFiles .all [] d.corrupt contents).1.isOk := by
    rw [query, hrelevant] at h
    dsimp only at h
    cases hfiles : (collectFiles .all [] d.corrupt contents).1 with
    | error fault =>
        rw [hfiles] at h
        cases h
    | ok found => rfl
  intro name content hget hday
  exact isReadable_of_collectFiles hcollected content ((hmem content).2 ⟨name, hget, hday⟩)

variable {n : Int} {name : String}

theorem get?_addLine (d : DayFiles) (name line other : String) :
    (d.make.addLine name line).folder.files.get? other =
      if name = other then some ((d.folder.files.get? name).getD "" ++ line ++ "\n")
      else d.folder.files.get? other :=
  Named.get?_put ..

theorem isReadable_getD (hd : d.Legible) (hname : IsDayFile name) :
    IsReadable ((d.folder.files.get? name).getD "") := by
  cases hget : d.folder.files.get? name with
  | none =>
      intro line hline
      cases hline
  | some content => exact hd name content hget hname

theorem isDayFile_dayName (h : FourDigitYear n) : IsDayFile (dayName n) := by
  rw [IsDayFile, h.dayOfFile?_dayName]
  rfl

theorem Legible.addLine (hd : d.Legible) (hk : k.Storable) (hname : IsDayFile name) :
    (d.make.addLine name k.json.text).Legible := by
  intro other content hget hother
  rw [get?_addLine] at hget
  split at hget
  · cases hget
    exact hk.isReadable_addLine (isReadable_getD hd hname)
  · exact hd other content hget hother

theorem holds_addLine (hk : k.Storable) (hn : FourDigitYear n)
    (hblank : ∀ c ∈ d.openLine n, blank c) :
    (d.make.addLine (dayName n) k.json.text).Holds k := by
  refine ⟨_, _, (get?_addLine ..).trans (if_pos rfl), isDayFile_dayName hn, ?_⟩
  have hentries := hk.entriesOf_addLine hblank
  rw [contentOf] at hentries
  rw [hentries]
  simp

theorem holds_of_addLine_torn (hk : k.Storable) (htorn : ∃ c ∈ d.openLine n, blank c = false)
    (h : (d.make.addLine (dayName n) k.json.text).Holds x) : d.Holds x := by
  obtain ⟨name, content, hget, hname, hx⟩ := h
  rw [get?_addLine] at hget
  split at hget
  · rename_i heq
    subst heq
    cases hget
    have hbefore := (hk.entriesOf_addLine_torn htorn).subset hx
    rw [contentOf] at hbefore
    cases hfile : d.folder.files.get? (dayName n) with
    | none =>
        rw [hfile] at hbefore
        cases hbefore
    | some before =>
        rw [hfile] at hbefore
        exact ⟨_, before, hfile, hname, hbefore⟩
  · exact ⟨name, content, hget, hname, hx⟩

theorem query_of_append (he : e.Storable) (hd : d.Legible)
    (happend : d.append e = (.ok (), d')) :
    ∃ k found, e.sanitized = .ok k ∧ (d'.query .all).1 = .ok found ∧
      ((∀ c ∈ d.openLine e.instant.day, blank c) → k ∈ found) ∧
      ((∃ c ∈ d.openLine e.instant.day, blank c = false) → ∀ x ∈ found, d.Holds x) := by
  obtain ⟨k, hk, rfl⟩ := (append_ok he).1 happend
  have hstorable := he.sanitized hk
  have hday := he.year.day
  obtain ⟨found, hfound, hmem⟩ := query_all (hd.addLine hstorable (isDayFile_dayName hday))
  refine ⟨k, found, hk, hfound, fun hblank => ?_, fun htorn x hx => ?_⟩
  · exact (hmem k).2 (holds_addLine hstorable hday hblank)
  · exact holds_of_addLine_torn hstorable htorn ((hmem x).1 hx)

theorem holds_iff_of_query {found₀ : List Entry} (h : (d.query .all).1 = .ok found₀) :
    d.Legible ∧ ∀ e, d.Holds e ↔ e ∈ found₀ := by
  have hd : d.Legible := legible_of_query (by rw [h]; rfl)
  obtain ⟨found, hfound, hmem⟩ := query_all hd
  rw [h] at hfound
  cases hfound
  exact ⟨hd, fun e => (hmem e).symm⟩

theorem append_found {found₀ : List Entry} (he : e.Storable)
    (hbefore : (d.query .all).1 = .ok found₀) (happend : d.append e = (.ok (), d')) :
    ∃ k found, e.sanitized = .ok k ∧ (d'.query .all).1 = .ok found ∧
      ((∀ c ∈ d.openLine e.instant.day, blank c) → k ∈ found) ∧
      ((∃ c ∈ d.openLine e.instant.day, blank c = false) → found ⊆ found₀) := by
  obtain ⟨hd, hmem⟩ := holds_iff_of_query hbefore
  obtain ⟨k, found, hk, hfound, hkept, htorn⟩ := query_of_append he hd happend
  exact ⟨k, found, hk, hfound, hkept, fun h x hx => (hmem x).1 (htorn h x hx)⟩

namespace Damage

def torn (rest : String) : DayFiles :=
  ⟨.holding "audit" [("audit-1970-01-01.jsonl", "\x7b\"id\":\"half" ++ rest)], 0⟩

def entry : Entry :=
  ⟨"e1", .at 0, .decision, "deny", .alert, some "exec-1", none, some [("tool", .str "send")]⟩

theorem storable_entry : entry.Storable where
  year := ⟨by decide, by decide⟩
  metadata ms hms := by
    cases hms
    exact Json.plain_obj.1 (.obj (by decide) (by decide) (by simp [Json.Plain.str]))

theorem sanitized_entry : entry.sanitized = .ok entry :=
  rfl

theorem append_entry (d : DayFiles) : ∃ d', d.append entry = (.ok (), d') :=
  ⟨_, (append_ok storable_entry).2 ⟨entry, sanitized_entry, rfl⟩⟩

end Damage

open Damage in
theorem append_found_behind_torn : ∃ d' found, (torn "\n").append entry = (.ok (), d') ∧
    (d'.query .all).1 = .ok found ∧ entry ∈ found := by
  obtain ⟨found₀, hbefore⟩ : ∃ found₀, ((torn "\n").query .all).1 = .ok found₀ :=
    exists_ok (by decide +kernel)
  obtain ⟨d', happend⟩ := append_entry (torn "\n")
  obtain ⟨k, found, hk, hfound, hkept, -⟩ := append_found storable_entry hbefore happend
  cases hk
  have hended : (torn "\n").openLine entry.instant.day = [] := by decide +kernel
  exact ⟨d', found, happend, hfound, hkept (by simp [hended])⟩

open Damage in
theorem not_append_found : ¬∀ (d d' : DayFiles) (e : Entry), e.Storable →
    d.append e = (.ok (), d') →
    ∃ k found, e.sanitized = .ok k ∧ (d'.query .all).1 = .ok found ∧ k ∈ found := by
  intro hclaim
  obtain ⟨d', happend⟩ := append_entry (torn "")
  obtain ⟨found₀, hbefore⟩ : ∃ found₀, ((torn "").query .all).1 = .ok found₀ :=
    exists_ok (by decide +kernel)
  have hnone : ((torn "").query .all).1.toOption.map List.length = some 0 := by
    decide +kernel
  rw [hbefore] at hnone
  obtain rfl : found₀ = [] := List.length_eq_zero_iff.1 (Option.some.inj hnone)
  obtain ⟨hd, hmem⟩ := holds_iff_of_query hbefore
  obtain ⟨-, found, -, hfound, -, htorn⟩ := query_of_append storable_entry hd happend
  obtain ⟨k, found', -, hfound', hk⟩ := hclaim _ _ _ storable_entry happend
  rw [hfound] at hfound'
  cases hfound'
  have htail : ((torn "").openLine entry.instant.day).any (!blank ·) := by decide +kernel
  have hholds := htorn (by simpa using htail) k hk
  rw [hmem] at hholds
  cases hholds

end DayFiles

end ToolGate
