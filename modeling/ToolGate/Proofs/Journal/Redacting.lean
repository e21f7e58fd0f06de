import ToolGate.Proofs.Journal.Listing
import ToolGate.Proofs.Journal.Messages
import ToolGate.Proofs.Json.Pruning

namespace ToolGate

open Text (Wide)

open Json (Alike Apart Distinct at? membersWithout without)

variable {ms ms' : Named (Json Wide)} {place : List String} {places : List (List String)}

theorem dropAt_eq (h : Distinct (.obj ms)) (hplace : place ≠ []) :
    dropAt place ms = membersWithout [place] ms := by
  induction place generalizing ms with
  | nil => exact absurd rfl hplace
  | cons name rest ih =>
      have hnames := (Json.distinct_obj.1 h).1
      cases rest with
      | nil => exact Json.erase_eq_membersWithout hnames name
      | cons second rest =>
          have hrest : second :: rest ≠ [] := List.cons_ne_nil second rest
          rw [dropAt.eq_3 _ _ _ hrest]
          split
          · rename_i inner hinner
            rw [ih (h.of_get? hinner) hrest, ← Json.put_eq_membersWithout hnames hinner hrest,
              without]
          · rename_i hobject
            -- no object stands in the way to the place, so there is nothing to take out
            refine (Json.membersWithout_eq_self fun m hm => ⟨by simp, ?_⟩).symm
            rw [Json.behind_singleton]
            split
            · rename_i hname
              refine Json.without_of_not_isObject ?_ _
              have hget := Named.get?_of_mem hnames hm
              cases hv : m.2 with
              | obj inner => exact absurd (hv ▸ hname ▸ hget) (hobject inner)
              | _ => rfl
            · exact Json.without_nil _

theorem dropAll_eq (h : Distinct (.obj ms)) (hplaces : ∀ place ∈ places, place ≠ []) :
    places.foldl (fun ms place => dropAt place ms) ms = membersWithout places ms := by
  induction places generalizing ms with
  | nil =>
      exact (Json.membersWithout_eq_self fun m _ => ⟨List.not_mem_nil, Json.without_nil m.2⟩).symm
  | cons place places ih =>
      have hdropped := dropAt_eq h (hplaces place List.mem_cons_self)
      have hdistinct : Distinct (.obj (membersWithout [place] ms)) := h.without [place]
      rw [List.foldl_cons, hdropped,
        ih hdistinct fun other hother => hplaces other (List.mem_cons_of_mem _ hother),
        ← Json.membersWithout_append]
      rfl

theorem cleanMetadata_eq (h : Distinct (.obj ms)) :
    cleanMetadata ms = cleanError (membersWithout neverKept ms) := by
  rw [cleanMetadata, dropAll_eq h (by decide)]

/-- What is kept of metadata: all but what is never kept, with the error message cleaned. -/
structure Redacted (ms ms' : Named (Json Wide)) : Prop where
  hidden : ∀ place ∈ [["payload"], ["value", "content"], ["tool", "input"], ["tool", "output"]],
    at? place (.obj ms') = none
  alike : Alike (["errorMessage"] :: neverKept) ms ms'
  elsewhere : ∀ place, Apart (["errorMessage"] :: neverKept) place →
    at? place (.obj ms') = at? place (.obj ms)
  silent : ms.get? "errorMessage" = none → ms'.get? "errorMessage" = none
  message : ∀ v, ms.get? "errorMessage" = some v → ∃ s, ms'.get? "errorMessage" = some (.str s) ∧
    s.units = ((Entry.plainText v).units.map blankedUnit).take 500

structure Settled (ms : Named (Json Wide)) : Prop where
  distinct : Distinct (.obj ms)
  pruned : membersWithout neverKept ms = ms
  message : ∀ v, ms.get? "errorMessage" = some v → ∃ s, v = .str s ∧ IsClean s

theorem settled_cleanMetadata (h : Distinct (.obj ms)) (hclean : cleanMetadata ms = .ok ms') :
    Settled ms' := by
  have hmessage := get?_errorMessage hclean
  rw [cleanMetadata_eq h] at hclean
  have hdistinct : Distinct (.obj (membersWithout neverKept ms)) := h.without neverKept
  have hpruned := Json.membersWithout_membersWithout neverKept ms
  have htext : ∀ v, ms'.get? "errorMessage" = some v → ∃ s, v = .str s ∧ IsClean s := by
    intro v hv
    rw [hmessage] at hv
    obtain ⟨w, -, rfl⟩ := Option.map_eq_some_iff.1 hv
    exact ⟨_, rfl, isClean_cleanMessage _⟩
  obtain ⟨-, rfl⟩ | ⟨v, -, -, rfl⟩ := cleanError_ok.1 hclean
  · exact ⟨hdistinct, hpruned, htext⟩
  · refine ⟨hdistinct.put (.str _) _, ?_, htext⟩
    rw [Json.membersWithout_put (by decide), hpruned, Json.without_of_not_isObject rfl]

theorem alike_cleanMetadata (h : Distinct (.obj ms)) (hclean : cleanMetadata ms = .ok ms') :
    Alike (["errorMessage"] :: neverKept) ms ms' := by
  have halike : Alike (["errorMessage"] :: neverKept) ms (membersWithout neverKept ms) :=
    (Json.alike_membersWithout neverKept ms).mono (List.subset_cons_self _ _)
  rw [cleanMetadata_eq h] at hclean
  obtain ⟨-, rfl⟩ | ⟨v, -, -, rfl⟩ := cleanError_ok.1 hclean
  · exact halike
  · exact halike.put List.mem_cons_self _

theorem redacted_cleanMetadata (h : Distinct (.obj ms)) (hclean : cleanMetadata ms = .ok ms') :
    Redacted ms ms' where
  hidden place hplace := by
    have hnone : at? place (without neverKept (.obj ms')) = none :=
      Json.at?_without_hidden (by decide) hplace (.obj ms')
    rwa [without, (settled_cleanMetadata h hclean).pruned] at hnone
  alike := alike_cleanMetadata h hclean
  elsewhere place hplace := ((alike_cleanMetadata h hclean).at?_eq hplace).symm
  silent hnone := by rw [get?_errorMessage hclean, hnone, Option.map_none]
  message v hv :=
    ⟨_, by rw [get?_errorMessage hclean, hv, Option.map_some], units_cleanMessage _⟩

theorem Settled.cleanMetadata (h : Settled ms) : cleanMetadata ms = .ok ms := by
  rw [cleanMetadata_eq h.distinct, h.pruned]
  cases hmessage : ms.get? "errorMessage" with
  | none => exact cleanError_ok.2 (.inl ⟨hmessage, rfl⟩)
  | some v =>
      obtain ⟨s, rfl, hs⟩ := h.message v hmessage
      refine cleanError_ok.2 (.inr ⟨_, hmessage, rfl, ?_⟩)
      rw [Entry.plainText, cleanMessage_eq_self hs, Named.put_self hmessage]

theorem sanitized_of_metadata (e : Entry) (ms : Named (Json Wide)) :
    { e with metadata := some ms }.sanitized =
      (cleanMetadata ms).map fun ms' => { e with metadata := some ms' } := rfl

theorem sanitized_hides_exactly (e : Entry) (ms : Named (Json Wide)) (h : Distinct (.obj ms))
    (hmessage : ∀ v, ms.get? "errorMessage" = some v → v.IsScalar) :
    (∃ ms', { e with metadata := some ms }.sanitized = .ok { e with metadata := some ms' } ∧
      Redacted ms ms' ∧
      { e with metadata := some ms' }.sanitized = .ok { e with metadata := some ms' }) ∧
    ∀ ns, Distinct (.obj ns) → Alike neverKept ms ns →
      { e with metadata := some ns }.sanitized = { e with metadata := some ms }.sanitized := by
  constructor
  · obtain ⟨ms', hclean⟩ := exists_cleanMetadata fun v hv => (hmessage v hv).hasText
    have hsettled := settled_cleanMetadata h hclean
    refine ⟨ms', ?_, redacted_cleanMetadata h hclean, ?_⟩
    · rw [sanitized_of_metadata, hclean]
      rfl
    · rw [sanitized_of_metadata, hsettled.cleanMetadata]
      rfl
  · intro ns hns halike
    rw [sanitized_of_metadata, sanitized_of_metadata, cleanMetadata_eq h, cleanMetadata_eq hns,
      halike.membersWithout_eq]

namespace Redacting

def call (given : Json Wide) : Named (Json Wide) :=
  [("tool", .obj [("name", .str "send"), ("input", given)]),
    ("value", .obj [("content", given), ("id", .str "v1")]), ("errorMessage", .str "no\nroom")]

theorem distinct_call {given : Json Wide} (h : Distinct given) : Distinct (.obj (call given)) := by
  have htool : Distinct (.obj [("name", .str ("send" : Wide)), ("input", given)]) :=
    Json.distinct_obj.2 ⟨by simp [Named.names], by simp [h, Distinct.str]⟩
  have hvalue : Distinct (.obj [("content", given), ("id", .str "v1")]) :=
    Json.distinct_obj.2 ⟨by simp [Named.names], by simp [h, Distinct.str]⟩
  exact Json.distinct_obj.2
    ⟨by simp [call, Named.names], by simp [call, htool, hvalue, Distinct.str]⟩

theorem alike_call (a b : Json Wide) : Alike neverKept (call a) (call b) :=
  .within (.same (.left (by decide) (.right (by decide) .nil)))
    (.within (.left (by decide) (.right (by decide) (.same .nil))) (.same .nil))

end Redacting

open DayFiles.Damage (entry) in
open Redacting in
theorem sanitized_hides_exactly_of_call : ∃ ms' : Named (Json Wide),
    { entry with metadata := some (call (.str "key")) }.sanitized =
      .ok { entry with metadata := some ms' } ∧
    at? ["tool", "input"] (.obj ms') = none ∧ at? ["value", "content"] (.obj ms') = none ∧
    at? ["tool", "name"] (.obj ms') = some (.str (Wide.ofString "send")) ∧
    { entry with metadata := some (call .null) }.sanitized =
      { entry with metadata := some (call (.str "key")) }.sanitized := by
  obtain ⟨⟨ms', hms, hredacted, -⟩, hother⟩ :=
    sanitized_hides_exactly entry (call (.str "key")) (distinct_call (.str _)) (by
      intro v hv
      cases hv
      trivial)
  refine ⟨ms', hms, hredacted.hidden _ (by decide), hredacted.hidden _ (by decide), ?_,
    hother _ (distinct_call .null) (alike_call _ _)⟩
  exact hredacted.elsewhere ["tool", "name"] (by simp [Apart, neverKept])

end ToolGate
