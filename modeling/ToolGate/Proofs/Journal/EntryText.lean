import ToolGate.Proofs.Journal.Cleaning
import ToolGate.Proofs.Journal.DayNames
import ToolGate.Proofs.Json.Shapes

namespace ToolGate

open Json (Plain PlainMembers Shape)
open Text (Wide)

theorem Category.get?_table (c : Category) : table.get? c.name = some c := by
  cases c <;> decide

theorem Severity.get?_table (s : Severity) : table.get? s.name = some s := by
  cases s <;> decide

namespace Json.Shape

variable {τ α : Type} {shape : Shape α τ}

theorem optional_map {json : α → Json τ} {a? : Option α}
    (h : ∀ a, a? = some a → shape (some (json a)) = .ok a) :
    optional shape (a?.map json) = .ok a? := by
  cases a? with
  | none => rfl
  | some a => exact map_ok.2 ⟨a, h a rfl, rfl⟩

theorem string_ofString (s : String) : string (some (.str (Wide.ofString s))) = .ok s :=
  congrArg Except.ok (Wide.encoded_ofString s)

theorem choice_ofString {table : Named α} {a : α} {s : String} (h : table.get? s = some a) :
    choice table (some (.str (Wide.ofString s))) = .ok a :=
  choice_str ((congrArg table.get? (Wide.encoded_ofString s)).trans h)

end Json.Shape

structure Entry.Storable (e : Entry) : Prop where
  year : e.instant.HasFourDigitYear
  metadata : ∀ ms, e.metadata = some ms → PlainMembers ms

def Entry.members (e : Entry) (time : String) : Named (Json Wide) :=
  ([("id", .str e.id), ("timestamp", .str time), ("category", .str e.category.name),
    ("action", .str e.action), ("severity", .str e.severity.name)] : Named (Json Wide)) ++
  (optionalText "executionId" e.execution ++
    (optionalText "callId" e.callId ++ optionalMember "metadata" (e.metadata.map .obj)))

namespace Entry.Storable

variable {e k : Entry}

theorem sanitized (h : e.Storable) (hk : e.sanitized = .ok k) : k.Storable := by
  obtain ⟨hnone, rfl⟩ | ⟨ms, ms', hms, hclean, rfl⟩ := sanitized_ok.1 hk
  · exact h
  · refine ⟨h.year, fun ns hns => ?_⟩
    cases hns
    exact plainMembers_cleanMetadata (h.metadata ms hms) hclean

theorem exists_text (h : e.Storable) : ∃ s, e.instant.text? = some s ∧
    Instant.parse s = e.instant := by
  have hyear := h.year
  cases hinstant : e.instant with
  | invalid =>
      rw [hinstant] at hyear
      exact hyear.elim
  | «at» ms =>
      rw [hinstant] at hyear
      exact ⟨_, rfl, Instant.parse_text hyear rfl⟩

theorem json_eq (h : e.Storable) :
    ∃ s, Instant.parse s = e.instant ∧ e.json = .obj (e.members s) := by
  obtain ⟨s, htext, hparse⟩ := h.exists_text
  refine ⟨s, hparse, ?_⟩
  simp [Entry.json, Entry.members, htext]

theorem instantShape_text (h : e.Storable) {s : String} (hparse : Instant.parse s = e.instant) :
    instantShape (some (.str (Wide.ofString s))) = .ok e.instant := by
  have hyear := h.year
  rw [← hparse] at hyear ⊢
  have hinstant : instantOf (.str (Wide.ofString s)) = .parse s := by
    simp [instantOf, plainText, Wide.encoded_ofString]
  rw [instantShape, hinstant]
  cases hms : Instant.parse s with
  | invalid =>
      rw [hms] at hyear
      exact hyear.elim
  | «at» ms => rfl

theorem metadataShape_obj {ms : Named (Json Wide)} (h : PlainMembers ms) :
    metadataShape (some (.obj ms)) = .ok ms := by
  have hbase : ms.filter (·.1 != Json.baseName) = ms := by
    refine List.filter_eq_self.2 fun m hm => ?_
    simp only [bne_iff_ne]
    exact fun heq => h.2.1 (heq ▸ List.mem_map_of_mem (f := Prod.fst) hm)
  exact congrArg Except.ok hbase

theorem plain_json (h : e.Storable) : Plain e.json := by
  obtain ⟨s, -, hjson⟩ := h.json_eq
  have hmetadata : ∀ ms, e.metadata = some ms → Plain (.obj ms) :=
    fun ms hms => Json.plain_obj.2 (h.metadata ms hms)
  rw [hjson]
  unfold members
  refine .obj ?_ ?_ ?_
  · cases e.execution <;> cases e.callId <;> cases e.metadata <;>
      simp [Named.names, optionalText, optionalMember]
  · cases e.execution <;> cases e.callId <;> cases e.metadata <;>
      simp [Named.names, optionalText, optionalMember, Json.baseName]
  · cases e.execution <;> cases e.callId <;> cases hms : e.metadata <;>
      simp_all [optionalText, optionalMember, Plain.str]

theorem shape_json (h : e.Storable) : Entry.shape (some e.json) = .ok e := by
  obtain ⟨s, hparse, hjson⟩ := h.json_eq
  rw [hjson]
  simp only [Entry.shape, bind_ok, pure_ok, Shape.member_ok]
  have hexecution : (e.members s).get? "executionId" =
      e.execution.map fun s => .str (Wide.ofString s) := by
    simp [members, optionalText, Named.get?, Named.get?_append, get?_optionalMember]
  have hcallId : (e.members s).get? "callId" = e.callId.map fun s => .str (Wide.ofString s) := by
    simp [members, optionalText, Named.get?, Named.get?_append, get?_optionalMember]
  have hmetadata : (e.members s).get? "metadata" = e.metadata.map Json.obj := by
    simp [members, optionalText, Named.get?, Named.get?_append, get?_optionalMember]
  refine ⟨_, Shape.object_ok.2 rfl, e.id, Shape.string_ofString _, e.instant,
    h.instantShape_text hparse, e.category, Shape.choice_ofString (Category.get?_table _),
    e.action, Shape.string_ofString _, e.severity,
    Shape.choice_ofString (Severity.get?_table _), e.execution, ?_, e.callId, ?_, e.metadata, ?_, rfl⟩
  · rw [hexecution]
    exact Shape.optional_map fun s _ => Shape.string_ofString s
  · rw [hcallId]
    exact Shape.optional_map fun s _ => Shape.string_ofString s
  · rw [hmetadata]
    exact Shape.optional_map fun ms hms => metadataShape_obj (h.metadata ms hms)

theorem readLine_chars (h : e.Storable) : DayFiles.readLine e.json.chars = .ok (some e) := by
  have hparse : Json.parse? (String.ofList e.json.chars) = some e.json :=
    h.plain_json.readable.parse?_text
  obtain ⟨s, -, hjson⟩ := h.json_eq
  have htime : (e.json.member? "timestamp").all hasText := by
    rw [hjson]
    rfl
  rw [DayFiles.readLine, hparse]
  simp only [htime, if_true, h.shape_json]
  rfl

end Entry.Storable

end ToolGate
