import ToolGate.Proofs.Token.History

namespace ToolGate.Table

variable {t : Table} {k l : Token} {id other : String}

theorem chain_mark (t : Table) (ids : List String) (x : String) :
    chain x (t.mark ids).tokens =
      (chain x t.tokens).map fun k => if k.id ∈ ids then { k with revoked := true } else k := by
  refine chain_map (fun k => ?_) x t.tokens
  split <;> exact ⟨rfl, rfl⟩

theorem any_revoked_marked {ks : List Token} (h : id ∈ ks.map Token.id) :
    (ks.map fun k => if k.id ∈ [id] then { k with revoked := true } else k).any Token.revoked := by
  obtain ⟨k, hk, rfl⟩ := List.mem_map.1 h
  rw [List.any_map, List.any_eq_true]
  exact ⟨k, hk, by simp⟩

theorem marked_of_notMem {ks : List Token} (h : id ∉ ks.map Token.id) :
    (ks.map fun k => if k.id ∈ [id] then { k with revoked := true } else k) = ks := by
  refine (List.map_congr_left fun k hk => if_neg fun heq => h ?_).trans (List.map_id' _)
  exact List.mem_map.2 ⟨k, hk, List.mem_singleton.1 heq⟩

theorem validate_mark (t : Table) (id x : String) (instant : Number) :
    (t.mark [id]).validate x instant =
      if id ∈ t.lineage x then .revoked else t.validate x instant := by
  rw [validate, chain_mark, lineage, validate]
  cases chain x t.tokens with
  | nil => rfl
  | cons k ks =>
      by_cases hid : id ∈ (k :: ks).map Token.id
      · have hany := any_revoked_marked hid
        rw [if_pos hid]
        rw [List.map_cons] at hany ⊢
        exact if_pos hany
      · rw [if_neg hid, marked_of_notMem hid]

theorem mark_comm (t : Table) (id other : String) :
    (t.mark [id]).mark [other] = (t.mark [other]).mark [id] := by
  rw [← mark_cons, ← mark_cons]
  refine congrArg Table.mk (List.map_congr_left fun k _ => if_congr ?_ rfl rfl)
  rw [List.mem_pair, List.mem_pair, or_comm]

theorem revoke_of_bars (h : t.Bars id) : t.revoke id = .ok (false, t) := by
  obtain ⟨k, hk, hrevoked⟩ := h
  simp only [revoke, hk, hrevoked, if_true]

theorem Sound.revoke_mark (hu : (t.mark [id]).Sound) (hl : t.get? other = some l) :
    ∃ changed, (t.mark [id]).revoke other = .ok (changed, (t.mark [id]).mark [other]) := by
  have hstored : (t.mark [id]).has other := by
    rw [has_mark]
    exact has_of_get? hl
  obtain ⟨m, hm⟩ := Option.isSome_iff_exists.1 hstored
  exact ⟨_, hu.revoke_eq hm⟩

theorem revocation_reaches (ht : t.Reached) (hk : t.get? id = some k) :
    ∃ u, t.revoke id = .ok (!k.revoked, u) ∧
      (∀ x instant, u.validate x instant =
        if id ∈ t.lineage x then .revoked else t.validate x instant) ∧
      u.revoke id = .ok (false, u) ∧
      ∀ other l, t.get? other = some l → ∃ v a b u' v', t.revoke other = .ok (!l.revoked, v) ∧
        u.revoke other = .ok (a, u') ∧ v.revoke id = .ok (b, v') ∧
        Snapshot.write u' = Snapshot.write v' := by
  have hrevoke := ht.sound.revoke_eq hk
  have hu := (ht.revoke hrevoke).sound
  refine ⟨t.mark [id], hrevoke, validate_mark t id, revoke_of_bars (bars_of_revoke hrevoke), ?_⟩
  intro other l hl
  have hother := ht.sound.revoke_eq hl
  obtain ⟨a, ha⟩ := Sound.revoke_mark hu hl
  obtain ⟨b, hb⟩ := Sound.revoke_mark (ht.revoke hother).sound hk
  exact ⟨_, a, b, _, _, hother, ha, hb, by rw [mark_comm]⟩

open Line in
theorem revocation_reaches_of_team :
    cut.validate "agent" 5 = .revoked ∧ cut.validate "root" 5 = .valid ∧
      cut.revoke "team" = .ok (false, cut) ∧
      ∃ v a b u' v', grown.revoke "root" = .ok (true, v) ∧ cut.revoke "root" = .ok (a, u') ∧
        v.revoke "team" = .ok (b, v') ∧ Snapshot.write u' = Snapshot.write v' := by
  have hteam : grown.get? "team" = some team := by decide +kernel
  have hroot : grown.get? "root" = some root := by decide +kernel
  have hcut : grown.revoke "team" = .ok (true, cut) := by decide +kernel
  have hagent : "team" ∈ grown.lineage "agent" := by decide +kernel
  have hother : "team" ∉ grown.lineage "root" := by decide +kernel
  have hvalid : grown.validate "root" 5 = .valid := by decide +kernel
  obtain ⟨u, hrevoke, hreach, hagain, horder⟩ := revocation_reaches grown_reached hteam
  obtain rfl : u = cut := (Prod.mk.inj (Except.ok.inj (hrevoke.symm.trans hcut))).2
  refine ⟨?_, ?_, hagain, horder "root" root hroot⟩
  · rw [hreach, if_pos hagent]
  · rw [hreach, if_neg hother, hvalid]

end ToolGate.Table
