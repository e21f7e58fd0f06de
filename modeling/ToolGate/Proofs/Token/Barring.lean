import ToolGate.Proofs.Token.Restoration

namespace ToolGate.Table

variable {t t' : Table} {k : Token} {id other : String} {changed : Bool}

theorem get?_revoke (h : t.revoke id = .ok (changed, t')) (other : String) :
    t'.get? other =
      (t.get? other).map fun k => if k.id = id then { k with revoked := true } else k := by
  unfold revoke at h
  split at h
  · cases h
  · rename_i k hk
    split at h
    · rename_i hrevoked
      cases h
      -- the token is revoked already, so the map changes nothing
      cases hl : t.get? other with
      | none => rfl
      | some l =>
          by_cases hid : l.id = id
          · obtain rfl : id = other := hid.symm.trans (get?_some hl).2
            obtain rfl := Option.some_inj.1 (hk.symm.trans hl)
            have hsame : { k with revoked := true } = k := by rw [← hrevoked]
            rw [Option.map_some, if_pos hid, hsame]
          · simp [hid]
    · cases h
      refine get?_map fun k => ?_
      split <;> rfl

theorem stored_of_revoke (h : t.revoke id = .ok (changed, t')) : ∃ k, t.get? id = some k := by
  unfold revoke at h
  split at h
  · cases h
  · exact ⟨_, ‹_›⟩

def mark (t : Table) (ids : List String) : Table :=
  ⟨t.tokens.map fun k => if k.id ∈ ids then { k with revoked := true } else k⟩

theorem mark_nil (t : Table) : t.mark [] = t := by
  simp [mark]

theorem mark_cons (t : Table) (id : String) (ids : List String) :
    t.mark (id :: ids) = (t.mark [id]).mark ids := by
  simp only [mark, List.map_map, Table.mk.injEq]
  refine List.map_congr_left fun k _ => ?_
  grind

theorem has_mark (t : Table) (ids : List String) (id : String) :
    (t.mark ids).has id = t.has id := by
  rw [has, has, mark, get?_map fun k => by split <;> rfl, Option.isSome_map]

theorem Sound.eq_of_id (ht : t.Sound) (hk : k ∈ t.tokens) (hl : l ∈ t.tokens) (h : k.id = l.id) :
    k = l := by
  have hget := ht.get?_of_mem hk
  rw [h, ht.get?_of_mem hl] at hget
  exact (Option.some_inj.1 hget).symm

theorem Sound.revoke_eq (ht : t.Sound) (hk : t.get? id = some k) :
    t.revoke id = .ok (!k.revoked, t.mark [id]) := by
  have hmark : k.revoked = true → t.mark [id] = t := by
    intro hrevoked
    refine congrArg Table.mk ((List.map_congr_left fun l hl => ?_).trans (List.map_id' _))
    split
    · rename_i hid
      obtain ⟨hmem, rfl⟩ := get?_some hk
      obtain rfl : l = k := ht.eq_of_id hl hmem (List.mem_singleton.1 hid)
      rw [← hrevoked]
    · rfl
  simp only [Table.revoke, hk]
  split
  · rename_i hrevoked
    rw [hmark hrevoked, hrevoked, Bool.not_true]
  · rename_i hrevoked
    simp [mark, hrevoked]

def Bars (t : Table) (id : String) : Prop :=
  ∃ k, t.get? id = some k ∧ k.revoked = true

theorem bars_of_revoke (h : t.revoke id = .ok (changed, t')) : t'.Bars id := by
  obtain ⟨k, hk⟩ := stored_of_revoke h
  refine ⟨{ k with revoked := true }, ?_, rfl⟩
  rw [get?_revoke h, hk, Option.map_some, if_pos (get?_some hk).2]

theorem Bars.revoke (hb : t.Bars id) (h : t.revoke other = .ok (changed, t')) : t'.Bars id := by
  obtain ⟨k, hk, hrevoked⟩ := hb
  refine ⟨_, by rw [get?_revoke h, hk, Option.map_some], ?_⟩
  split
  · rfl
  · exact hrevoked

theorem Bars.add (hb : t.Bars id) (fresh : ¬t.has k.id) : (t.add k).Bars id := by
  obtain ⟨l, hl, hrevoked⟩ := hb
  exact ⟨l, get?_add_of_get? fresh hl, hrevoked⟩

theorem Bars.mint {clock : Clock} {ids : IdSource} {r : MintRequest} (hb : t.Bars id)
    (h : (t.mint clock ids r).1 = .ok (k, t')) : t'.Bars id := by
  obtain ⟨rfl, fresh, -⟩ := mintAs_ok h
  exact hb.add fresh

theorem Bars.delegate {clock : Clock} {ids : IdSource} {parent : String} {r : DelegationRequest}
    (hb : t.Bars id) (h : (t.delegate clock ids parent r).1 = .ok (.ok (k, t'))) : t'.Bars id := by
  obtain ⟨_, _, _, _, -, hstep⟩ := delegate_ok h
  obtain ⟨rfl, fresh, -⟩ := delegateAs_ok hstep
  exact hb.add fresh

theorem Bars.settled (hb : t.Bars id) : t.settled.Bars id := by
  obtain ⟨k, hk, hrevoked⟩ := hb
  refine ⟨k.settled, ?_, hrevoked⟩
  rw [get?_settled, hk, Option.map_some]

theorem mem_of_mem_chain {ks : List Token} (h : k ∈ chain id ks) : k ∈ ks := by
  induction ks generalizing id with
  | nil => cases h
  | cons l ks ih =>
      rw [chain] at h
      split at h
      · cases hp : l.parent with
        | none =>
            rw [hp] at h
            exact List.mem_cons.2 (.inl (List.mem_singleton.1 h))
        | some p =>
            rw [hp] at h
            rcases List.mem_cons.1 h with rfl | h
            · exact List.mem_cons_self
            · exact List.mem_cons_of_mem _ (ih h)
      · exact List.mem_cons_of_mem _ (ih h)

theorem Bars.validate_ne (hb : t.Bars id) (ht : t.Sound) (hid : id ∈ t.lineage other)
    (instant : Number) : t.validate other instant ≠ .valid := by
  intro hvalid
  obtain ⟨k, hk, hrevoked⟩ := hb
  obtain ⟨l, ls, hchain, unrevoked, -⟩ := validate_eq_valid.1 hvalid
  obtain ⟨a, ha, rfl⟩ := List.mem_map.1 hid
  obtain rfl := Option.some_inj.1 (hk.symm.trans (ht.get?_of_mem (mem_of_mem_chain ha)))
  rw [hchain] at ha
  rw [unrevoked k ha] at hrevoked
  cases hrevoked

theorem Bars.notMem_lineage (hb : t.Bars id) (ht : t.Sound) {held : List String} {instant : Number}
    (hk : k ∈ (t.revalidate held instant).effective) : id ∉ t.lineage k.id := by
  intro hid
  simp only [revalidate, List.mem_filterMap, List.mem_filter, beq_iff_eq] at hk
  obtain ⟨other, ⟨-, hvalid⟩, hget⟩ := hk
  rw [(get?_some hget).2] at hid
  exact hb.validate_ne ht hid instant hvalid

end ToolGate.Table
