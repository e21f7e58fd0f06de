import Mathlib.Logic.Relation
import ToolGate.Proofs.Number.Order
import ToolGate.Proofs.Token.Admission
import ToolGate.Proofs.Token.Revocation

namespace ToolGate

namespace Window

def Contains (w : Window) (instant : Number) : Prop :=
  w.notBefore ≤ instant ∧ ∀ e, w.expiresAt = some e → instant < e

theorem status_eq_valid {w : Window} (h : w.isWellFormed) {instant : Number}
    (hi : instant ≠ .nan) : w.status instant = .valid ↔ w.Contains instant := by
  obtain ⟨hstart, hend⟩ := isBound_of_isWellFormed h
  have hbegun : ¬instant < w.notBefore ↔ w.notBefore ≤ instant :=
    Number.not_lt hi (ne_nan_of_isBound hstart)
  have hopen : ¬w.expiresAt.any (· ≤ instant) ↔ ∀ e, w.expiresAt = some e → instant < e := by
    cases he : w.expiresAt with
    | none => simp
    | some e => simpa using Number.not_le (ne_nan_of_isBound (hend e he)) hi
  rw [Contains, ← hbegun, ← hopen, status]
  by_cases hexpired : w.expiresAt.any (· ≤ instant)
  · simp [hexpired]
  · by_cases hearly : instant < w.notBefore <;> simp [hexpired, hearly]

theorem Contains.of_isNarrower {outer inner : Window} {instant : Number}
    (h : inner.Contains instant) (ho : outer.isWellFormed) (hi : inner.isWellFormed)
    (hn : outer.isNarrower inner) : outer.Contains instant := by
  obtain ⟨hearly, e, he, hlast⟩ := isNarrower_iff.1 hn
  have hstart : outer.notBefore ≤ inner.notBefore := by
    rw [← Number.not_lt (ne_nan_of_isBound (isBound_of_isWellFormed hi).1)
      (ne_nan_of_isBound (isBound_of_isWellFormed ho).1)]
    exact hearly
  exact ⟨Number.le_trans hstart h.1, fun last hl => Number.lt_trans (h.2 e he) (hlast last hl)⟩

end Window

namespace Table

def Parent (t : Table) (k l : Token) : Prop :=
  ∃ p, k.parent = some p ∧ t.get? p = some l

def Above (t : Table) (k a : Token) : Prop :=
  Relation.ReflTransGen t.Parent k a

def Covers (t : Table) (id resource : String) (instant : Number) : Prop :=
  ∃ k, t.get? id = some k ∧ resource ∈ k.scope ∧ t.validate id instant = .valid

variable {t : Table} {k l a : Token} {id p : String} {instant : Number}

theorem chain_add_of_has (fresh : ¬t.has k.id) (h : t.has id) :
    chain id (t.add k).tokens = chain id t.tokens := by
  have hne : k.id ≠ id := fun heq => fresh (heq ▸ h)
  simp [add, chain, hne]

theorem Sound.chain_of_get? (ht : Sound t) (hk : t.get? id = some k) :
    chain id t.tokens = k :: k.parent.elim [] (chain · t.tokens) := by
  induction ht generalizing k with
  | empty => cases hk
  | @add t l ht fresh hl ih =>
      -- above a token of the old table the new one is never met
      have hparent {m : Token} (hm : t.Supports m) :
          m.parent.elim [] (chain · (t.add l).tokens) = m.parent.elim [] (chain · t.tokens) := by
        cases hp : m.parent with
        | none => rfl
        | some p =>
            obtain ⟨n, hn, -⟩ := hm.narrower p hp
            exact chain_add_of_has fresh (has_of_get? hn)
      rw [get?_add] at hk
      by_cases hid : l.id = id
      · rw [if_pos hid] at hk
        cases hk
        rw [hparent hl, Table.add, chain, if_pos hid]
        cases l.parent <;> rfl
      · rw [if_neg hid] at hk
        rw [hparent (ht.supports hk), chain_add_of_has fresh (has_of_get? hk), ih hk]

theorem Sound.descend (ht : Sound t) {P : String → Token → Prop}
    (root : ∀ id k, t.get? id = some k → k.parent = none → P id k)
    (child : ∀ id k p l, t.get? id = some k → k.parent = some p → t.get? p = some l → P p l → P id k)
    (hk : t.get? id = some k) : P id k := by
  -- the chain of the parent is the rest of the chain of the child
  induction hlength : (chain id t.tokens).length generalizing id k with
  | zero => simp [ht.chain_of_get? hk] at hlength
  | succ n ih =>
      cases hp : k.parent with
      | none => exact root id k hk hp
      | some p =>
          obtain ⟨l, hl, -⟩ := (ht.supports hk).narrower p hp
          refine child id k p l hk hp hl (ih hl ?_)
          simpa [ht.chain_of_get? hk, hp] using hlength

theorem above_iff : t.Above k a ↔ k = a ∨ ∃ l, t.Parent k l ∧ t.Above l a :=
  Relation.ReflTransGen.cases_head_iff

theorem parent_iff (hp : k.parent = some p) (hl : t.get? p = some l) {m : Token} :
    t.Parent k m ↔ m = l := by
  simp [Parent, hp, hl, eq_comm]

theorem Sound.mem_chain (ht : Sound t) (hk : t.get? id = some k) :
    a ∈ chain id t.tokens ↔ t.Above k a := by
  refine ht.descend (P := fun id k => a ∈ chain id t.tokens ↔ t.Above k a) ?_ ?_ hk
  · intro id k hk hroot
    rw [ht.chain_of_get? hk, above_iff]
    simp [hroot, Parent, eq_comm]
  · intro id k p l hk hp hl ih
    rw [ht.chain_of_get? hk, above_iff, hp]
    simp only [Option.elim, List.mem_cons, ih, parent_iff hp hl, exists_eq_left]
    simp [eq_comm]

theorem Sound.isRooted_chain (ht : Sound t) (hk : t.get? id = some k) :
    isRooted (chain id t.tokens) := by
  refine ht.descend (P := fun id _ => isRooted (chain id t.tokens) = true) ?_ ?_ hk
  · intro id k hk hroot
    simp [ht.chain_of_get? hk, hroot, isRooted]
  · intro id k p l hk hp hl ih
    have hne : chain p t.tokens ≠ [] := by simp [ht.chain_of_get? hl]
    rw [ht.chain_of_get? hk, hp]
    simpa [isRooted, List.getLast?_cons, List.getLast?_eq_some_getLast hne] using ih

theorem Above.stored (h : t.Above k a) (hk : t.get? id = some k) : ∃ i, t.get? i = some a := by
  induction h with
  | refl => exact ⟨id, hk⟩
  | tail _ hstep _ =>
      obtain ⟨p, -, hp⟩ := hstep
      exact ⟨p, hp⟩

theorem Sound.contains_of_above (ht : Sound t) (hk : t.get? id = some k)
    (hin : k.window.Contains instant) (h : t.Above k a) : a.window.Contains instant := by
  induction h with
  | refl => exact hin
  | @tail b c hb hstep ih =>
      obtain ⟨i, hi⟩ := Above.stored hb hk
      obtain ⟨p, hp, hc⟩ := hstep
      have hsb := ht.supports hi
      obtain ⟨l, hl, -, hnarrow⟩ := hsb.narrower p hp
      obtain rfl : l = c := Option.some_inj.1 (hl.symm.trans hc)
      exact ih.of_isNarrower (ht.supports hc).window hsb.window hnarrow

theorem Sound.validate_eq_valid_iff (ht : Sound t) (hk : t.get? id = some k)
    (hi : instant ≠ .nan) : t.validate id instant = .valid ↔
      ∀ a, t.Above k a → a.revoked = false ∧ a.window.Contains instant := by
  have hstatus := Window.status_eq_valid (ht.supports hk).window hi
  have hchain := ht.chain_of_get? hk
  rw [validate_eq_valid]
  constructor
  · rintro ⟨k', ks, hks, unrevoked, -, hvalid⟩ a ha
    obtain ⟨rfl, -⟩ := List.cons.inj (hks.symm.trans hchain)
    refine ⟨unrevoked a ?_, ht.contains_of_above hk (hstatus.1 hvalid) ha⟩
    rw [← hks, ht.mem_chain hk]
    exact ha
  · intro hall
    refine ⟨k, _, hchain, ?_, ?_, hstatus.2 (hall k .refl).2⟩
    · intro a ha
      rw [← hchain, ht.mem_chain hk] at ha
      exact (hall a ha).1
    · rw [← hchain]
      exact ht.isRooted_chain hk

theorem Sound.covers_parent (ht : Sound t) (hk : t.get? id = some k) (hp : k.parent = some p)
    (hi : instant ≠ .nan) {resource : String} (h : t.Covers id resource instant) :
    t.Covers p resource instant := by
  obtain ⟨k', hk', hscope, hvalid⟩ := h
  obtain rfl : k = k' := Option.some_inj.1 (hk.symm.trans hk')
  obtain ⟨l, hl, hsubset, -⟩ := (ht.supports hk).narrower p hp
  refine ⟨l, hl, Scope.isNarrower_subset hsubset resource hscope, ?_⟩
  rw [ht.validate_eq_valid_iff hk hi] at hvalid
  rw [ht.validate_eq_valid_iff hl hi]
  exact fun a ha => hvalid a (above_iff.2 (.inr ⟨l, ⟨p, hp, hl⟩, ha⟩))

theorem validity_along_line (ht : t.Reached) (hk : t.get? id = some k) (hi : instant ≠ .nan) :
    (t.validate id instant = .valid ↔
      ∀ a, t.Above k a → a.revoked = false ∧ a.window.Contains instant) ∧
    ∀ p, k.parent = some p →
      ∀ resource, t.Covers id resource instant → t.Covers p resource instant :=
  ⟨ht.sound.validate_eq_valid_iff hk hi, fun _ hp _ => ht.sound.covers_parent hk hp hi⟩

namespace Line

def root : Token := ⟨"root", "host", "lead", ["mail", "files", "web"], ⟨0, none⟩, none, false⟩

def team : Token := ⟨"team", "host", "team", ["mail", "web"], ⟨2, some 20⟩, some "root", false⟩

def agent : Token := ⟨"agent", "host", "agent", ["mail"], ⟨3, some 9⟩, some "team", false⟩

def clock : Clock := fun _ => .ok 4

def ids : IdSource := ⟨fun n => toString n, 0⟩

def grown : Table := ⟨[agent, team, root]⟩

def cut : Table := ⟨[agent, { team with revoked := true }, root]⟩

theorem grown_reached : grown.Reached := by
  have hroot : (Table.empty.mint clock ids
      ⟨some "root", "host", "lead", ["mail", "files", "web"], ⟨some 0, none⟩⟩).1 =
        .ok (root, ⟨[root]⟩) := by
    decide +kernel
  have hteam : (Table.delegate ⟨[root]⟩ clock ids "root"
      ⟨some "team", ["mail", "web"], ⟨some 2, some 20⟩, some "team", none⟩).1 =
        .ok (.ok (team, ⟨[team, root]⟩)) := by
    decide +kernel
  have hagent : (Table.delegate ⟨[team, root]⟩ clock ids "team"
      ⟨some "agent", ["mail"], ⟨some 3, some 9⟩, some "agent", none⟩).1 =
        .ok (.ok (agent, grown)) := by
    decide +kernel
  exact ((Reached.empty.mint hroot).delegate hteam).delegate hagent

theorem cut_reached : cut.Reached := by
  have hcut : grown.revoke "team" = .ok (true, cut) := by decide +kernel
  exact grown_reached.revoke hcut

end Line

open Line in
theorem validity_along_line_of_agent :
    (∀ a, grown.Above agent a → a.revoked = false ∧ a.window.Contains 5) ∧
      grown.Covers "team" "mail" 5 ∧
      ¬∀ a, cut.Above agent a → a.revoked = false ∧ a.window.Contains 5 := by
  have hi : (5 : Number) ≠ .nan := by decide +kernel
  have hgrown : grown.get? "agent" = some agent := by decide +kernel
  have hcut : cut.get? "agent" = some agent := by decide +kernel
  obtain ⟨hline, hparent⟩ := validity_along_line grown_reached hgrown hi
  have hvalid : grown.validate "agent" 5 = .valid := by decide +kernel
  refine ⟨hline.1 hvalid, ?_, ?_⟩
  · exact hparent "team" rfl "mail" ⟨agent, hgrown, by simp [agent], hvalid⟩
  · rw [← (validity_along_line cut_reached hcut hi).1]
    decide +kernel

end Table

end ToolGate
