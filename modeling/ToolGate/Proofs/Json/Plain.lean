import ToolGate.Proofs.Json.Reading

namespace ToolGate.Json

variable {τ : Type}

inductive Plain : Json τ → Prop
  | null : Plain .null
  | bool (b) : Plain (.bool b)
  | num {x : Number} : x.isFinite → x.key = x → Plain (.num x)
  | str (s) : Plain (.str s)
  | arr {items} : (∀ v ∈ items, Plain v) → Plain (.arr items)
  | obj {members : Named (Json τ)} : members.names.Nodup → baseName ∉ members.names →
      (∀ m ∈ members, Plain m.2) → Plain (.obj members)

theorem Plain.readable [Textual τ] {v : Json τ} (h : Plain v) : Readable v := by
  induction h with
  | null => exact .null
  | bool b => exact .bool b
  | num hfinite hkey => exact hkey ▸ readable_key hfinite
  | str s => exact .str s
  | arr _ ih => exact .arr ih
  | obj hdistinct _ _ ih => exact .obj hdistinct ih

def PlainMembers (ms : Named (Json τ)) : Prop :=
  ms.names.Nodup ∧ baseName ∉ ms.names ∧ ∀ m ∈ ms, Plain m.2

variable {ms : Named (Json τ)} {name : String} {v : Json τ}

theorem plain_obj : Plain (.obj ms) ↔ PlainMembers ms := by
  constructor
  · intro h
    cases h with
    | obj hdistinct hbase hmembers => exact ⟨hdistinct, hbase, hmembers⟩
  · rintro ⟨hdistinct, hbase, hmembers⟩
    exact .obj hdistinct hbase hmembers

namespace PlainMembers

theorem plain_of_get? (h : PlainMembers ms) (hv : ms.get? name = some v) : Plain v :=
  h.2.2 _ (Named.mem_of_get? hv)

theorem sublist (h : PlainMembers ms) {ns : Named (Json τ)} (hns : ns.Sublist ms) :
    PlainMembers ns where
  left := (hns.map Prod.fst).nodup h.1
  right := ⟨fun hmem => h.2.1 ((hns.map Prod.fst).subset hmem),
    fun m hm => h.2.2 m (hns.subset hm)⟩

end PlainMembers

end ToolGate.Json
