import Mathlib.Data.List.Induction
import ToolGate.Proofs.Named
import ToolGate.Proofs.Verdict.Agreement

namespace ToolGate

namespace Table

variable {t : Table} {id : String} {held : List String} {instant : Number} {r : Revalidation}

def sift (t : Table) (instant : Number) (r : Revalidation) (id : String) : Revalidation :=
  match t.validate id instant, t.get? id with
  | .valid, some k => ⟨r.effective ++ [k], r.stripped⟩
  | .valid, none => ⟨r.effective, r.stripped ++ [(id, .unknown)]⟩
  | status, _ => ⟨r.effective, r.stripped ++ [(id, status)]⟩

theorem exists_of_valid (h : t.validate id instant = .valid) : ∃ k, t.get? id = some k := by
  cases hk : t.get? id with
  | some k => exact ⟨k, rfl⟩
  | none =>
      obtain ⟨k, ks, hchain, -⟩ := validate_eq_valid.1 h
      cases (chain_of_unknown hk).symm.trans hchain

theorem sift_of_valid {k : Token} (hk : t.get? id = some k) (h : t.validate id instant = .valid) :
    t.sift instant r id = ⟨r.effective ++ [k], r.stripped⟩ := by
  rw [sift, h, hk]

theorem sift_of_not_valid (h : t.validate id instant ≠ .valid) :
    t.sift instant r id = ⟨r.effective, r.stripped ++ [(id, t.validate id instant)]⟩ := by
  unfold sift
  cases hstatus : t.validate id instant with
  | valid => exact absurd hstatus h
  | _ => rfl

theorem revalidate_concat (held : List String) (id : String) :
    t.revalidate (held ++ [id]) instant =
      if id ∈ held then t.revalidate held instant
      else t.sift instant (t.revalidate held instant) id := by
  simp only [revalidate, eraseDups_concat]
  split
  -- a token that is held twice is looked at once
  · rfl
  · rw [List.filter_append, List.filter_append]
    by_cases hvalid : t.validate id instant = .valid
    · obtain ⟨k, hk⟩ := exists_of_valid hvalid
      rw [sift_of_valid hk hvalid]
      simp [hvalid, hk]
    · rw [sift_of_not_valid hvalid]
      simp [hvalid]

def InOrder (held names : List String) : Prop :=
  names.Pairwise fun a b => held.idxOf a < held.idxOf b

theorem InOrder.concat {names : List String} (h : InOrder held names)
    (hheld : ∀ name ∈ names, name ∈ held) (id : String) : InOrder (held ++ [id]) names := by
  refine h.imp_of_mem ?_
  intro a b ha hb hlt
  rwa [List.idxOf_append_of_mem (hheld a ha), List.idxOf_append_of_mem (hheld b hb)]

theorem InOrder.concat_fresh {names : List String} (h : InOrder held names)
    (hheld : ∀ name ∈ names, name ∈ held) (fresh : id ∉ held) :
    InOrder (held ++ [id]) (names ++ [id]) := by
  refine List.pairwise_append.2 ⟨h.concat hheld id, List.pairwise_singleton _ _, ?_⟩
  intro name hname last hlast
  cases List.mem_singleton.1 hlast
  rw [List.idxOf_append_of_mem (hheld name hname), List.idxOf_append_of_notMem fresh]
  exact Nat.lt_add_right _ (List.idxOf_lt_length_of_mem (hheld name hname))

structure Sifted (t : Table) (instant : Number) (held : List String) (r : Revalidation) : Prop where
  effective : ∀ k, k ∈ r.effective ↔
    k.id ∈ held ∧ t.get? k.id = some k ∧ t.validate k.id instant = .valid
  stripped : ∀ id status, (id, status) ∈ r.stripped ↔
    id ∈ held ∧ t.validate id instant = status ∧ status ≠ .valid
  parted : (r.effective.map Token.id ++ r.stripped.map Prod.fst).Perm held.eraseDups
  effectiveInOrder : InOrder held (r.effective.map Token.id)
  strippedInOrder : InOrder held (r.stripped.map Prod.fst)

theorem Sifted.held_of_effective (h : t.Sifted instant held r) :
    ∀ name ∈ r.effective.map Token.id, name ∈ held := by
  intro name hname
  obtain ⟨k, hk, rfl⟩ := List.mem_map.1 hname
  exact ((h.effective k).1 hk).1

theorem Sifted.held_of_stripped (h : t.Sifted instant held r) :
    ∀ name ∈ r.stripped.map Prod.fst, name ∈ held := by
  intro name hname
  obtain ⟨⟨id, status⟩, hid, rfl⟩ := List.mem_map.1 hname
  exact ((h.stripped id status).1 hid).1

theorem Sifted.mem_effective (h : t.Sifted instant held r) (hvalid : t.validate id instant = .valid) :
    id ∈ r.effective.map Token.id ↔ id ∈ held := by
  constructor
  · exact h.held_of_effective id
  · intro hid
    obtain ⟨k, hk⟩ := exists_of_valid hvalid
    obtain rfl := (get?_some hk).2
    exact List.mem_map_of_mem ((h.effective k).2 ⟨hid, hk, hvalid⟩)

theorem Sifted.again (h : t.Sifted instant held r) (hid : id ∈ held) :
    t.Sifted instant (held ++ [id]) r := by
  have hsame (name : String) : name ∈ held ++ [id] ↔ name ∈ held := by
    rw [List.mem_append, List.mem_singleton]
    constructor
    · rintro (hname | rfl)
      · exact hname
      · exact hid
    · exact .inl
  refine ⟨fun k => ?_, fun name status => ?_, ?_, ?_, ?_⟩
  · rw [hsame]
    exact h.effective k
  · rw [hsame]
    exact h.stripped name status
  · rw [eraseDups_concat, if_pos hid]
    exact h.parted
  · exact h.effectiveInOrder.concat h.held_of_effective id
  · exact h.strippedInOrder.concat h.held_of_stripped id

theorem Sifted.keep (h : t.Sifted instant held r) (fresh : id ∉ held) {k : Token}
    (hk : t.get? id = some k) (hvalid : t.validate id instant = .valid) :
    t.Sifted instant (held ++ [id]) ⟨r.effective ++ [k], r.stripped⟩ := by
  obtain rfl := (get?_some hk).2
  refine ⟨fun l => ?_, fun name status => ?_, ?_, ?_, ?_⟩
  · rw [List.mem_append, List.mem_singleton, h.effective, List.mem_append, List.mem_singleton]
    constructor
    · rintro (⟨hheld, hl⟩ | rfl)
      · exact ⟨.inl hheld, hl⟩
      · exact ⟨.inr rfl, hk, hvalid⟩
    · rintro ⟨hheld | hname, hl, hlvalid⟩
      · exact .inl ⟨hheld, hl, hlvalid⟩
      · rw [hname, hk] at hl
        exact .inr (Option.some.inj hl).symm
  · rw [h.stripped, List.mem_append, List.mem_singleton]
    constructor
    · rintro ⟨hheld, hstatus⟩
      exact ⟨.inl hheld, hstatus⟩
    · rintro ⟨hheld | rfl, hstatus, hne⟩
      · exact ⟨hheld, hstatus, hne⟩
      · exact absurd (hstatus.symm.trans hvalid) hne
  · rw [eraseDups_concat, if_neg fresh, List.map_append, List.map_singleton]
    -- the new token stands behind those kept, and so before those stripped
    refine .trans ?_ (h.parted.append_right [k.id])
    rw [List.append_assoc, List.append_assoc]
    exact List.perm_append_comm.append_left _
  · rw [List.map_append]
    exact h.effectiveInOrder.concat_fresh h.held_of_effective fresh
  · exact h.strippedInOrder.concat h.held_of_stripped k.id

theorem Sifted.strip (h : t.Sifted instant held r) (fresh : id ∉ held)
    (hstatus : t.validate id instant ≠ .valid) :
    t.Sifted instant (held ++ [id])
      ⟨r.effective, r.stripped ++ [(id, t.validate id instant)]⟩ := by
  refine ⟨fun l => ?_, fun name status => ?_, ?_, ?_, ?_⟩
  · rw [h.effective, List.mem_append, List.mem_singleton]
    constructor
    · rintro ⟨hheld, hl⟩
      exact ⟨.inl hheld, hl⟩
    · rintro ⟨hheld | hname, hl, hvalid⟩
      · exact ⟨hheld, hl, hvalid⟩
      · exact absurd (hname ▸ hvalid) hstatus
  · rw [List.mem_append, List.mem_singleton, h.stripped, List.mem_append, List.mem_singleton,
      Prod.mk.injEq]
    constructor
    · rintro (⟨hheld, hname⟩ | ⟨rfl, rfl⟩)
      · exact ⟨.inl hheld, hname⟩
      · exact ⟨.inr rfl, rfl, hstatus⟩
    · rintro ⟨hheld | rfl, hname, hne⟩
      · exact .inl ⟨hheld, hname, hne⟩
      · exact .inr ⟨rfl, hname.symm⟩
  · rw [eraseDups_concat, if_neg fresh, List.map_append, ← List.append_assoc]
    exact h.parted.append_right _
  · exact h.effectiveInOrder.concat h.held_of_effective id
  · rw [List.map_append]
    exact h.strippedInOrder.concat_fresh h.held_of_stripped fresh

theorem Sifted.sift (h : t.Sifted instant held r) (fresh : id ∉ held) :
    t.Sifted instant (held ++ [id]) (t.sift instant r id) := by
  by_cases hvalid : t.validate id instant = .valid
  · obtain ⟨k, hk⟩ := exists_of_valid hvalid
    rw [sift_of_valid hk hvalid]
    exact h.keep fresh hk hvalid
  · rw [sift_of_not_valid hvalid]
    exact h.strip fresh hvalid

theorem sifted_revalidate (t : Table) (held : List String) (instant : Number) :
    t.Sifted instant held (t.revalidate held instant) := by
  induction held using List.reverseRecOn with
  | nil => exact ⟨by simp [revalidate], by simp [revalidate], .refl _, .nil, .nil⟩
  | append_singleton held id ih =>
      rw [revalidate_concat]
      split
      · rename_i hid
        exact ih.again hid
      · rename_i fresh
        exact ih.sift fresh

end Table

namespace Cascade

variable {x : Execution} {r : Request} {rule : ToolRule} {held : List String}

theorem checkAuthority_of_same {t : Table} {now : Number}
    (h : ∀ id, t.validate id now = .valid → (id ∈ held ↔ id ∈ r.held)) :
    checkAuthority t rule { r with held } (.ok now) = checkAuthority t rule r (.ok now) := by
  have hcovered (resource : String) :
      resource ∈ covered t { r with held } now ↔ resource ∈ covered t r now := by
    rw [mem_covered, mem_covered]
    constructor
    · rintro ⟨id, hid, k, hk, hvalid, hrest⟩
      exact ⟨id, (h id hvalid).1 hid, k, hk, hvalid, hrest⟩
    · rintro ⟨id, hid, k, hk, hvalid, hrest⟩
      exact ⟨id, (h id hvalid).2 hid, k, hk, hvalid, hrest⟩
  have hmissing : rule.authority.filter (!(covered t { r with held } now).contains ·) =
      rule.authority.filter (!(covered t r now).contains ·) := by
    refine List.filter_congr fun resource _ => ?_
    rw [Bool.eq_iff_iff]
    simp [hcovered]
  simp only [checkAuthority, Except.map, hmissing]

theorem judge_of_same {now : Number}
    (h : ∀ id, x.table.validate id now = .valid → (id ∈ held ↔ id ∈ r.held)) :
    judge x { r with held } (.ok now) = judge x r (.ok now) := by
  have hrule (rule : ToolRule) :
      judgeRule x rule { r with held } (.ok now) = judgeRule x rule r (.ok now) := by
    have hbound : bindRules { r with held } rule.argRules = bindRules r rule.argRules :=
      bindRules_congr (r := r) (s := { r with held }) rfl _
    rw [judgeRule, hbound, checkAuthority_of_same h]
    rfl
  simp only [judge, hrule]

end Cascade

theorem evaluate_of_stripped (x : Execution) (r : Request) (now : Number) :
    x.table.Sifted now r.held (x.table.revalidate r.held now) ∧
      x.evaluate { r with held := (x.table.revalidate r.held now).effective.map Token.id }
        (.ok now) = x.evaluate r (.ok now) := by
  have hsifted := x.table.sifted_revalidate r.held now
  refine ⟨hsifted, ?_⟩
  rw [Execution.evaluate, Execution.decision,
    Cascade.judge_of_same fun id => hsifted.mem_effective]
  rfl

end ToolGate
