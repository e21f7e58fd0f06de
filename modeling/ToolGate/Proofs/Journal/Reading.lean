import ToolGate.Journal.Store
import ToolGate.Proofs.Number.Order
import ToolGate.Proofs.Steps

namespace ToolGate

namespace DayFiles

variable {cs xs ys : List Char} {ls : List (List Char)}

theorem lines_cons (c : Char) (cs : List Char) : lines (c :: cs) =
    if c = '\n' then [] :: lines cs
    else match lines cs with
      | [] => [[c]]
      | l :: ls => (c :: l) :: ls :=
  rfl

theorem lines_ne_nil (cs : List Char) : lines cs ≠ [] := by
  cases cs with
  | nil => simp [lines]
  | cons c cs =>
      rw [lines_cons]
      split
      · simp
      · split <;> simp

theorem lines_append (xs ys : List Char) : lines (xs ++ '\n' :: ys) = lines xs ++ lines ys := by
  induction xs with
  | nil => rfl
  | cons c xs ih =>
      rw [List.cons_append, lines_cons, lines_cons, ih]
      split
      · rfl
      · obtain ⟨l, ls, hlines⟩ := List.exists_cons_of_ne_nil (lines_ne_nil xs)
        rw [hlines]
        rfl

theorem lines_of_notMem (h : '\n' ∉ cs) : lines cs = [cs] := by
  induction cs with
  | nil => rfl
  | cons c cs ih =>
      rw [List.mem_cons, not_or] at h
      rw [lines_cons, if_neg (Ne.symm h.1), ih h.2]

def entryOfLine (line : List Char) : Option Entry :=
  (readLine line).toOption.join

def entriesOf (content : String) : List Entry :=
  (fileLines content).filterMap entryOfLine

def IsReadable (content : String) : Prop :=
  ∀ line ∈ fileLines content, (readLine line).isOk

theorem readLines_eq (h : ∀ line ∈ ls, (readLine line).isOk) :
    (readLines ls).1 = .ok (ls.filterMap entryOfLine) := by
  induction ls with
  | nil => rfl
  | cons line ls ih =>
      obtain ⟨hline, hls⟩ := List.forall_mem_cons.1 h
      obtain ⟨e?, he⟩ := exists_ok hline
      have hentry : entryOfLine line = e? := by
        rw [entryOfLine, he]
        rfl
      rw [readLines, he, List.filterMap_cons, hentry]
      cases e? with
      | none => exact ih hls
      | some e =>
          simp only [ih hls]
          rfl

theorem isOk_of_readLines (h : (readLines ls).1.isOk) : ∀ line ∈ ls, (readLine line).isOk := by
  induction ls with
  | nil => simp
  | cons line ls ih =>
      rw [List.forall_mem_cons]
      rw [readLines] at h
      cases hline : readLine line with
      | error fault =>
          rw [hline] at h
          cases h
      | ok e? =>
          rw [hline] at h
          refine ⟨rfl, ih ?_⟩
          cases e? with
          | none => exact h
          | some e =>
              dsimp only at h
              cases hread : (readLines ls).1 with
              | error fault =>
                  rw [hread] at h
                  cases h
              | ok es => rfl

end DayFiles

namespace Filter

variable {f : Filter} {es : List Entry}

def cut (f : Filter) (es : List Entry) : List Entry :=
  match f.limit.bind Number.natural? with
  | none => es
  | some n => es.take n

def HasWholeLimit (f : Filter) : Prop :=
  ∀ x, f.limit = some x → ∃ n, x.natural? = some n ∧ 0 < n

theorem HasWholeLimit.reached_iff (h : f.HasWholeLimit) (k : Nat) :
    DayFiles.reached f.limit? k ↔ ∃ n, f.limit.bind Number.natural? = some n ∧ n ≤ k := by
  cases hlimit : f.limit with
  | none => simp [DayFiles.reached, limit?, hlimit]
  | some x =>
      obtain ⟨n, hn, hpos⟩ := h x hlimit
      have hkept : f.limit? = some x := by
        obtain ⟨a, u, fits, rfl, hu⟩ := Number.signedUnits_of_natural? hn
        rw [limit?, hlimit, Option.bind_some]
        cases u with
        | zero =>
            have hzero : Number.signedUnits a 0 = 0 := by cases a <;> rfl
            have hscaled := Nat.mul_pos hpos Number.unitsPerOne_pos
            omega
        | succ u => rfl
      rw [DayFiles.reached, hkept, Option.any_some, Number.leNat_iff hn]
      simp [hn]

def Room (f : Filter) (found : List Entry) : Prop :=
  ∀ n, f.limit.bind Number.natural? = some n → found.length < n

theorem HasWholeLimit.room_nil (h : f.HasWholeLimit) : f.Room [] := by
  intro n hn
  obtain ⟨x, hx, hn⟩ := Option.bind_eq_some_iff.1 hn
  obtain ⟨m, hm, hpos⟩ := h x hx
  rw [hn] at hm
  cases hm
  exact hpos

theorem Room.cut_reverse {found : List Entry} (h : f.Room found) :
    f.cut found.reverse = found.reverse := by
  unfold cut
  split
  · rfl
  · rename_i n hn
    exact List.take_of_length_le (by simpa using Nat.le_of_lt (h n hn))

inductive Gathers (f : Filter) (found : List Entry) : Bool → List Entry → Prop
  | all {all} : f.Room found → found.reverse = all → Gathers f found false all
  | limited {all n} : f.limit.bind Number.natural? = some n → found.length = n →
      found.reverse = all.take n → Gathers f found true all

theorem Gathers.limited_append {found all : List Entry} (h : f.Gathers found true all)
    (more : List Entry) : f.cut (all ++ more) = found.reverse := by
  cases h with
  | @limited _ n hn hlength htake =>
      have hlong : n ≤ all.length := by
        have hcount := congrArg List.length htake
        rw [List.length_reverse, List.length_take] at hcount
        omega
      have hcut : f.cut (all ++ more) = (all ++ more).take n := by rw [cut, hn]
      rw [hcut, List.take_append_of_le_length hlong, htake]

end Filter

namespace DayFiles

variable {f : Filter} {found : List Entry}

theorem collect_gathers (hlimit : f.HasWholeLimit) (hroom : f.Room found) (es : List Entry) :
    f.Gathers (collect f found es).1 (collect f found es).2
      (found.reverse ++ es.filter f.admits) := by
  induction es generalizing found with
  | nil => exact .all hroom (by simp [collect])
  | cons e es ih =>
      rw [collect]
      split
      case isFalse hadmits =>
        rw [List.filter_cons_of_neg hadmits]
        exact ih hroom
      case isTrue hadmits =>
        rw [List.filter_cons_of_pos hadmits]
        split
        case isTrue hreached =>
          obtain ⟨n, hn, hle⟩ := (hlimit.reached_iff _).1 hreached
          have hlength : found.length + 1 = n := Nat.le_antisymm (hroom n hn) hle
          refine .limited hn hlength ?_
          have htake : found.reverse.take (found.length + 1) = found.reverse :=
            List.take_of_length_le (by simp)
          rw [List.take_append, List.length_reverse, ← hlength, htake]
          simp
        case isFalse hreached =>
          have hroom' : f.Room (e :: found) := by
            intro n hn
            refine Nat.lt_of_not_le fun hle => ?_
            exact hreached ((hlimit.reached_iff _).2 ⟨n, hn, hle⟩)
          have hrest := ih hroom'
          rwa [List.reverse_cons, List.append_assoc, List.singleton_append] at hrest

theorem collectFiles_eq (hlimit : f.HasWholeLimit) (hroom : f.Room found) (corrupt : Nat)
    {contents : List String} (h : ∀ content ∈ contents, IsReadable content) :
    (collectFiles f found corrupt contents).1.map List.reverse =
      .ok (f.cut (found.reverse ++ (contents.flatMap entriesOf).filter f.admits)) := by
  induction contents generalizing found corrupt with
  | nil => simp [collectFiles, Except.map, hroom.cut_reverse]
  | cons content contents ih =>
      obtain ⟨hcontent, hcontents⟩ := List.forall_mem_cons.1 h
      have hread := readLines_eq hcontent
      have hgathers := collect_gathers hlimit hroom (entriesOf content)
      rw [List.flatMap_cons, List.filter_append, ← List.append_assoc, collectFiles]
      generalize readLines (fileLines content) = done at hread
      obtain ⟨read, more⟩ := done
      dsimp only at hread
      subst hread
      dsimp only [entriesOf] at hgathers ⊢
      generalize collect f found _ = collected at hgathers
      obtain ⟨found', stopped⟩ := collected
      dsimp only at hgathers ⊢
      cases stopped with
      | true =>
          rw [hgathers.limited_append]
          rfl
      | false =>
          cases hgathers with
          | all hroom' hall =>
              rw [← hall]
              exact ih hroom' (corrupt + more) hcontents

theorem collect_all (found es : List Entry) : (collect .all found es).2 = false := by
  induction es generalizing found with
  | nil => rfl
  | cons e es ih => exact ih (e :: found)

theorem isReadable_of_collectFiles {corrupt : Nat} {contents : List String}
    (h : (collectFiles .all found corrupt contents).1.isOk) :
    ∀ content ∈ contents, IsReadable content := by
  induction contents generalizing found corrupt with
  | nil => simp
  | cons content contents ih =>
      rw [List.forall_mem_cons]
      have hlines : (readLines (fileLines content)).1.isOk → IsReadable content := isOk_of_readLines
      rw [collectFiles] at h
      generalize readLines (fileLines content) = done at h hlines
      obtain ⟨read, more⟩ := done
      cases read with
      | error fault => cases h
      | ok read =>
          have hall := collect_all found read
          dsimp only at h
          generalize collect .all found read = collected at h hall
          obtain ⟨found', stopped⟩ := collected
          cases hall
          exact ⟨hlines rfl, ih h⟩

theorem query_of_relevant {d : DayFiles} {contents : List String} (hlimit : f.HasWholeLimit)
    (hrelevant : d.relevant f = .ok contents) (h : ∀ content ∈ contents, IsReadable content) :
    (d.query f).1 = .ok (f.cut ((contents.flatMap entriesOf).filter f.admits)) := by
  have hcollected := collectFiles_eq hlimit hlimit.room_nil d.corrupt h
  rw [query, hrelevant]
  exact hcollected

end DayFiles

end ToolGate
