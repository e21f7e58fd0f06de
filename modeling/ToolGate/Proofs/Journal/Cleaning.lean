import ToolGate.Journal.Redaction
import ToolGate.Proofs.Json.Plain
import ToolGate.Proofs.Named
import ToolGate.Proofs.Steps

namespace ToolGate

open Text (Wide)

namespace Entry

theorem get?_optionalMember (name other : String) (v : Option (Json Wide)) :
    Named.get? other (optionalMember name v) = if name = other then v else none := by
  cases v with
  | none => simp [optionalMember, Named.get?]
  | some v => simp [optionalMember, Named.get?]

end Entry

open Json (Plain PlainMembers baseName)

variable {ms ms' : Named (Json Wide)} {name : String} {e e' : Entry}

def droppedNames : List String := neverKept.filterMap List.head?

theorem get?_dropAt {place : List String} (h : place.head? ≠ some name) (ms : Named (Json Wide)) :
    (dropAt place ms).get? name = ms.get? name := by
  match place with
  | [] => rfl
  | [p] => exact Named.get?_erase (by simpa using h) ms
  | p :: q :: rest =>
      simp only [dropAt]
      split
      · rw [Named.get?_put, if_neg (by simpa using h)]
      · rfl

theorem get?_dropAll {places : List (List String)} (h : name ∉ places.filterMap List.head?)
    (ms : Named (Json Wide)) : (places.foldl (fun ms place => dropAt place ms) ms).get? name =
      ms.get? name := by
  induction places generalizing ms with
  | nil => rfl
  | cons place places ih =>
      have hplace : place.head? ≠ some name := by
        intro hhead
        exact h (List.mem_filterMap.2 ⟨place, by simp, hhead⟩)
      have hplaces : name ∉ places.filterMap List.head? := by
        intro hmem
        obtain ⟨other, hother, hhead⟩ := List.mem_filterMap.1 hmem
        exact h (List.mem_filterMap.2 ⟨other, by simp [hother], hhead⟩)
      rw [List.foldl_cons, ih hplaces, get?_dropAt hplace]

theorem cleanError_ok : cleanError ms = .ok ms' ↔
    (ms.get? "errorMessage" = none ∧ ms = ms') ∨ ∃ v, ms.get? "errorMessage" = some v ∧
      Entry.hasText v ∧
        ms.put "errorMessage" (.str (cleanMessage (Entry.plainText v))) = ms' := by
  unfold cleanError
  cases ms.get? "errorMessage" with
  | none => simp
  | some v =>
      dsimp only
      split <;> simp_all

theorem get?_cleanMetadata (h : cleanMetadata ms = .ok ms') (herror : name ≠ "errorMessage")
    (hdropped : name ∉ droppedNames) : ms'.get? name = ms.get? name := by
  obtain ⟨-, rfl⟩ | ⟨v, -, -, rfl⟩ := cleanError_ok.1 h
  · exact get?_dropAll hdropped ms
  · rw [Named.get?_put, if_neg (Ne.symm herror)]
    exact get?_dropAll hdropped ms

theorem get?_errorMessage (h : cleanMetadata ms = .ok ms') : ms'.get? "errorMessage" =
    (ms.get? "errorMessage").map fun v => .str (cleanMessage (Entry.plainText v)) := by
  have hget : (neverKept.foldl (fun ms place => dropAt place ms) ms).get? "errorMessage" =
      ms.get? "errorMessage" := get?_dropAll (by decide) ms
  obtain ⟨hnone, rfl⟩ | ⟨v, hv, -, rfl⟩ := cleanError_ok.1 h
  · rw [← hget, hnone, Option.map_none]
  · rw [← hget, hv, Option.map_some, Named.get?_put, if_pos rfl]

theorem exists_cleanMetadata (h : ∀ v, ms.get? "errorMessage" = some v → Entry.hasText v) :
    ∃ ms', cleanMetadata ms = .ok ms' := by
  have hget : (neverKept.foldl (fun ms place => dropAt place ms) ms).get? "errorMessage" =
      ms.get? "errorMessage" := get?_dropAll (by decide) ms
  cases hmessage : ms.get? "errorMessage" with
  | none => exact ⟨_, cleanError_ok.2 (.inl ⟨hget.trans hmessage, rfl⟩)⟩
  | some v => exact ⟨_, cleanError_ok.2 (.inr ⟨v, hget.trans hmessage, h v hmessage, rfl⟩)⟩

theorem Json.PlainMembers.put (h : PlainMembers ms) (hname : name ≠ baseName) {v : Json Wide}
    (hv : Plain v) : PlainMembers (ms.put name v) := by
  refine ⟨Named.nodup_put h.1 v name, ?_, ?_⟩
  · rw [Named.names_put]
    split
    · exact h.2.1
    · simpa using ⟨h.2.1, Ne.symm hname⟩
  · intro m hm
    obtain rfl | hm := Named.mem_put hm
    · exact hv
    · exact h.2.2 m hm

theorem Json.PlainMembers.dropAt (h : PlainMembers ms) (place : List String) :
    PlainMembers (dropAt place ms) := by
  induction place generalizing ms with
  | nil => exact h
  | cons name rest ih =>
      cases rest with
      | nil => exact h.sublist (Named.erase_sublist name ms)
      | cons other rest =>
          unfold ToolGate.dropAt
          split
          · rename_i inner hinner
            have hname : name ≠ baseName := by
              rintro rfl
              exact h.2.1 (List.mem_map_of_mem (f := Prod.fst) (Named.mem_of_get? hinner))
            exact h.put hname
              (Json.plain_obj.2 (ih (Json.plain_obj.1 (h.plain_of_get? hinner))))
          · exact h

theorem Json.PlainMembers.dropAll (h : PlainMembers ms) (places : List (List String)) :
    PlainMembers (places.foldl (fun ms place => ToolGate.dropAt place ms) ms) := by
  induction places generalizing ms with
  | nil => exact h
  | cons place places ih => exact ih (h.dropAt place)

theorem plainMembers_cleanMetadata (h : PlainMembers ms) (hclean : cleanMetadata ms = .ok ms') :
    PlainMembers ms' := by
  have hdropped := h.dropAll neverKept
  obtain ⟨-, rfl⟩ | ⟨v, -, -, rfl⟩ := cleanError_ok.1 hclean
  · exact hdropped
  · exact hdropped.put (by decide) (.str _)

theorem sanitized_ok : e.sanitized = .ok e' ↔ (e.metadata = none ∧ e = e') ∨
    ∃ ms ms', e.metadata = some ms ∧ cleanMetadata ms = .ok ms' ∧
      { e with metadata := some ms' } = e' := by
  unfold Entry.sanitized
  cases e.metadata with
  | none => simp
  | some ms => simp [map_ok]

end ToolGate
