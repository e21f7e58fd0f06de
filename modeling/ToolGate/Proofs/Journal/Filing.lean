import ToolGate.Proofs.Journal.EntryText
import ToolGate.Proofs.Journal.Reading
import ToolGate.Proofs.Json.Lines

namespace ToolGate

open DayFiles

namespace DayFiles

variable {cs xs ys : List Char} {e : Entry} {before : String}

def lastLine (cs : List Char) : List Char :=
  (lines cs).getLast (lines_ne_nil cs)

theorem lastLine_eq {ls : List (List Char)} {l : List Char} (h : lines xs = ls ++ [l]) :
    lastLine xs = l := by
  simp only [lastLine, h, List.getLast_append_singleton]

theorem exists_lines_append (xs : List Char) : ∃ ls l, lines xs = ls ++ [l] ∧
    ∀ ys, '\n' ∉ ys → lines (xs ++ ys) = ls ++ [l ++ ys] := by
  induction xs with
  | nil => exact ⟨[], [], rfl, fun ys h => lines_of_notMem h⟩
  | cons c xs ih =>
      obtain ⟨ls, l, hlines, happend⟩ := ih
      by_cases hc : c = '\n'
      · refine ⟨[] :: ls, l, ?_, fun ys hys => ?_⟩
        · rw [lines_cons, if_pos hc, hlines]
          rfl
        · rw [List.cons_append, lines_cons, if_pos hc, happend ys hys]
          rfl
      · cases ls with
        | nil =>
            refine ⟨[], c :: l, ?_, fun ys hys => ?_⟩
            · rw [lines_cons, if_neg hc, hlines]
              rfl
            · rw [List.cons_append, lines_cons, if_neg hc, happend ys hys]
              rfl
        | cons l' ls =>
            refine ⟨(c :: l') :: ls, l, ?_, fun ys hys => ?_⟩
            · rw [lines_cons, if_neg hc, hlines]
              rfl
            · rw [List.cons_append, lines_cons, if_neg hc, happend ys hys]
              rfl

theorem exists_lines (xs : List Char) : ∃ ls, lines xs = ls ++ [lastLine xs] ∧
    ∀ ys, '\n' ∉ ys → lines (xs ++ ys) = ls ++ [lastLine xs ++ ys] := by
  obtain ⟨ls, l, hlines, happend⟩ := exists_lines_append xs
  rw [lastLine_eq hlines]
  exact ⟨ls, hlines, happend⟩

theorem lastLine_newline (xs : List Char) : lastLine (xs ++ ['\n']) = [] := by
  have hlines := lines_append xs []
  simp only [lastLine, hlines]
  exact List.getLast_append_singleton _

def NonBlank (line : List Char) : Bool :=
  !line.all Text.isBlank

theorem exists_fileLines (before : String) : ∃ ls,
    fileLines before = ls ++ [lastLine before.toList].filter NonBlank ∧
    ∀ ys, '\n' ∉ ys → NonBlank (lastLine before.toList ++ ys) →
      fileLines (before ++ String.ofList ys ++ "\n") = ls ++ [lastLine before.toList ++ ys] := by
  obtain ⟨ls, hlines, happend⟩ := exists_lines before.toList
  refine ⟨ls.filter NonBlank, ?_, fun ys hys hblank => ?_⟩
  · rw [fileLines, hlines]
    exact List.filter_append ..
  · have hend := lines_append (before.toList ++ ys) []
    have hchars : (before ++ String.ofList ys ++ "\n").toList = before.toList ++ ys ++ '\n' :: [] := by
      simp [String.toList_append]
    have hempty : lines [] = [[]] := rfl
    have hnone : List.filter NonBlank [[]] = [] := rfl
    have hline : List.filter NonBlank [lastLine before.toList ++ ys] =
        [lastLine before.toList ++ ys] := List.filter_eq_self.2 (by simpa using hblank)
    rw [fileLines, hchars, hend, happend ys hys, hempty]
    change List.filter NonBlank (ls ++ [lastLine before.toList ++ ys] ++ [[]]) = _
    rw [List.filter_append, List.filter_append, hline, hnone, List.append_nil]

theorem nonBlank_append (h : NonBlank ys) (xs : List Char) : NonBlank (xs ++ ys) := by
  simp only [NonBlank, Bool.not_eq_true', List.all_append] at *
  rw [h, Bool.and_false]

end DayFiles

namespace Entry.Storable

variable {e : Entry}

theorem nonBlank_chars (h : e.Storable) : NonBlank e.json.chars := by
  obtain ⟨s, -, hjson⟩ := h.json_eq
  obtain ⟨cs, hcs⟩ := Json.exists_chars (.str (Text.Wide.ofString e.id)) _
  rw [hjson]
  simp only [members, List.cons_append]
  rw [hcs]
  rfl

theorem fileLines_append (h : e.Storable) (before : String) : ∃ ls,
    fileLines before = ls ++ [lastLine before.toList].filter NonBlank ∧
    fileLines (before ++ e.json.text ++ "\n") = ls ++ [lastLine before.toList ++ e.json.chars] := by
  obtain ⟨ls, hbefore, hafter⟩ := exists_fileLines before
  exact ⟨ls, hbefore, hafter _ h.plain_json.readable.newline_notMem
    (nonBlank_append h.nonBlank_chars _)⟩

theorem readLine_blank (h : e.Storable) {cs : List Char} (hcs : ∀ c ∈ cs, Json.Token.blank c) :
    readLine (cs ++ e.json.chars) = .ok (some e) := by
  have hline := h.readLine_chars
  rw [readLine] at hline
  rw [readLine, Json.parse?_blank_append hcs]
  exact hline

theorem readLine_torn (h : e.Storable) {cs : List Char}
    (hcs : ∃ c ∈ cs, Json.Token.blank c = false) : readLine (cs ++ e.json.chars) = .ok none := by
  have hreadable := h.plain_json.readable
  obtain ⟨s, -, hjson⟩ := h.json_eq
  rw [hjson] at hreadable ⊢
  rw [readLine]
  simp only [members, List.cons_append] at hreadable ⊢
  rw [Json.parse?_append hcs hreadable]

theorem isReadable_addLine (h : e.Storable) {before : String} (hbefore : IsReadable before) :
    IsReadable (before ++ e.json.text ++ "\n") := by
  obtain ⟨ls, hlines, happended⟩ := h.fileLines_append before
  intro line hline
  rw [happended] at hline
  obtain hline | hline := List.mem_append.1 hline
  · exact hbefore line (hlines ▸ List.mem_append_left _ hline)
  · rw [List.mem_singleton.1 hline]
    by_cases hblank : ∀ c ∈ lastLine before.toList, Json.Token.blank c
    · rw [h.readLine_blank hblank]
      rfl
    · rw [h.readLine_torn (by simpa using hblank)]
      rfl

theorem entriesOf_addLine (h : e.Storable) {before : String}
    (hblank : ∀ c ∈ lastLine before.toList, Json.Token.blank c) :
    entriesOf (before ++ e.json.text ++ "\n") = entriesOf before ++ [e] := by
  obtain ⟨ls, hlines, happended⟩ := h.fileLines_append before
  have hlast : entryOfLine (lastLine before.toList) = none := by
    have hparse : _ = (_ : Option (Json Text.Wide)) := Json.parse?_blank_append hblank []
    rw [List.append_nil] at hparse
    rw [entryOfLine, readLine, hparse]
    rfl
  have hnone : ([lastLine before.toList].filter NonBlank).filterMap entryOfLine = [] := by
    rw [List.filterMap_eq_nil_iff]
    intro line hline
    rwa [List.mem_singleton.1 (List.mem_of_mem_filter hline)]
  have hnew : entryOfLine (lastLine before.toList ++ e.json.chars) = some e := by
    rw [entryOfLine, h.readLine_blank hblank]
    rfl
  rw [entriesOf, entriesOf, happended, hlines, List.filterMap_append, List.filterMap_append, hnone,
    List.append_nil, List.filterMap_cons_some hnew]
  rfl

theorem entriesOf_addLine_torn (h : e.Storable) {before : String}
    (htorn : ∃ c ∈ lastLine before.toList, Json.Token.blank c = false) :
    entriesOf (before ++ e.json.text ++ "\n") <+: entriesOf before := by
  obtain ⟨ls, hlines, happended⟩ := h.fileLines_append before
  have hnew : entryOfLine (lastLine before.toList ++ e.json.chars) = none := by
    rw [entryOfLine, h.readLine_torn htorn]
    rfl
  rw [entriesOf, entriesOf, happended, hlines, List.filterMap_append, List.filterMap_append,
    List.filterMap_cons_none hnew, List.filterMap_nil, List.append_nil]
  exact List.prefix_append _ _

end Entry.Storable

namespace DayFiles

theorem lastLine_addLine (before line : String) :
    lastLine (before ++ line ++ "\n").toList = [] := by
  have hchars : (before ++ line ++ "\n").toList = (before ++ line).toList ++ ['\n'] := by
    simp [String.toList_append]
  rw [hchars, lastLine_newline]

end DayFiles

end ToolGate
