import ToolGate.Proofs.Json.Reading
import ToolGate.Proofs.Token.Admission
import ToolGate.Proofs.Token.Revocation

namespace ToolGate

namespace Snapshot

variable {t : Table} {k : Token} {ks : List Token}

theorem isFinite_of_isBound {x : Number} (h : Window.isBound x) : x.isFinite := by
  cases x with
  | finite => rfl
  | nan | infinite => cases h

theorem readable_orNull {α : Type} {json : α → Json} {a? : Option α}
    (h : ∀ a, a? = some a → Json.Readable (json a)) : Json.Readable (orNull json a?) := by
  cases a? with
  | none => exact .null
  | some a => exact h a rfl

theorem readable_windowJson {w : Window} (h : w.isWellFormed) :
    Json.Readable (windowJson w.keyed) := by
  obtain ⟨hstart, hend⟩ := Window.isBound_of_isWellFormed h
  refine .obj (by simp [Named.names]) ?_
  simp only [List.forall_mem_cons, List.not_mem_nil, false_imp_iff, implies_true, and_true]
  refine ⟨Json.readable_key (isFinite_of_isBound hstart), readable_orNull fun x hx => ?_⟩
  obtain ⟨e, he, rfl⟩ := Option.map_eq_some_iff.1 hx
  exact Json.readable_key (isFinite_of_isBound (hend e he))

theorem readable_tokenJson (h : k.window.isWellFormed) :
    Json.Readable (tokenJson k.settled) := by
  refine .obj (by simp [Named.names]) ?_
  simp only [List.forall_mem_cons, List.not_mem_nil, false_imp_iff, implies_true, and_true]
  refine ⟨.str _, .str _, .str _, .arr ?_, readable_windowJson h, readable_orNull ?_, .bool _⟩
  · rw [List.forall_mem_map]
    exact fun resource _ => .str resource
  · exact fun p _ => .str p

theorem readable_json (h : ∀ k ∈ ks, k.window.isWellFormed) :
    Json.Readable (json (ks.map Token.settled)) := by
  refine .obj (by simp [Named.names]) ?_
  simp only [List.forall_mem_cons, List.not_mem_nil, false_imp_iff, implies_true, and_true]
  refine ⟨Json.readable_nat (by decide), .arr ?_⟩
  simp only [List.map_map, List.forall_mem_map, Function.comp_apply]
  exact fun k hk => readable_tokenJson (h k hk)

theorem nullable_orNull {α : Type} {shape : Json.Shape α} {json : α → Json} {a? : Option α}
    (hnull : ∀ a, json a ≠ .null) (h : ∀ a, a? = some a → shape (some (json a)) = .ok a) :
    Json.Shape.nullable shape (some (orNull json a?)) = .ok a? := by
  rw [Json.Shape.nullable_ok]
  cases a? with
  | none => exact .inl ⟨rfl, rfl⟩
  | some a => exact .inr ⟨by simpa [orNull] using hnull a, a, h a rfl, rfl⟩

theorem nonNegative_of_isBound {x : Number} (h : Window.isBound x) :
    Json.Shape.nonNegative (some (.num x : Json)) = .ok x := by
  obtain ⟨hsafe, hsign⟩ := Window.isBound_iff.1 h
  refine Json.Shape.nonNegative_ok.2 ⟨rfl, ?_, ?_⟩
  · cases x with
    | finite a u _ => simp_all [Number.isSafeInteger, Number.isInteger]
    | _ => cases hsafe
  · rw [Number.zero_eq]
    exact hsign

theorem windowShape_windowJson {w : Window} (h : w.isWellFormed) :
    windowShape (some (windowJson w)) = .ok w := by
  obtain ⟨hstart, hend⟩ := Window.isBound_of_isWellFormed h
  simp only [windowShape, bind_ok, pure_ok, Json.Shape.member_ok]
  refine ⟨_, Json.Shape.object_ok.2 rfl, w.notBefore, nonNegative_of_isBound hstart, w.expiresAt,
    ?_, (), Json.Shape.only_ok (by simp), rfl⟩
  exact nullable_orNull (by simp) fun e he => nonNegative_of_isBound (hend e he)

theorem ne_empty_of_stored {p : String} {l : Token} (ht : t.Sound) (h : t.get? p = some l) :
    p ≠ "" := by
  have hid := (ht.supports h).filled.id
  rwa [(Table.get?_some h).2] at hid

theorem tokenShape_tokenJson (ht : t.Sound) (h : t.Supports k) :
    tokenShape (some (tokenJson k)) = .ok k := by
  have hscope := h.scope
  simp only [Scope.isWellFormed, Bool.and_eq_true, Bool.not_eq_true', List.all_eq_true] at hscope
  simp only [tokenShape, bind_ok, pure_ok, Json.Shape.member_ok]
  refine ⟨_, Json.Shape.object_ok.2 rfl, k.id, Json.Shape.filled_ok.2 ⟨rfl, h.filled.id⟩, k.issuer,
    Json.Shape.filled_ok.2 ⟨rfl, h.filled.issuer⟩, k.subject,
    Json.Shape.filled_ok.2 ⟨rfl, h.filled.subject⟩, k.scope, ?_, k.window,
    windowShape_windowJson h.window, k.parent, ?_, k.revoked, Json.Shape.boolean_ok.2 rfl,
    (), Json.Shape.only_ok (by simp), rfl⟩
  · refine Json.Shape.filledList_ok.2 ⟨_, rfl, ?_, ?_⟩
    · simpa using hscope.1
    · rw [List.forall₂_map_left_iff, List.forall₂_same]
      intro resource hmem
      refine Json.Shape.filled_ok.2 ⟨rfl, Table.ne_empty_of_not_blank ?_⟩
      simpa using hscope.2 resource hmem
  · refine nullable_orNull (by simp) fun p hp => ?_
    obtain ⟨l, hl, -⟩ := h.narrower p hp
    exact Json.Shape.filled_ok.2 ⟨rfl, ne_empty_of_stored ht hl⟩

theorem tokensShape_json (ht : t.Sound) (h : ∀ k ∈ ks, t.Supports k) :
    tokensShape (some (json ks)) = .ok ks := by
  simp only [tokensShape, bind_ok, pure_ok, Json.Shape.member_ok]
  refine ⟨_, Json.Shape.object_ok.2 rfl, (), Json.Shape.one_ok, ks,
    Json.Shape.list_ok.2 ⟨_, rfl, ?_⟩, (),
    Json.Shape.only_ok (by simp), rfl⟩
  rw [List.forall₂_map_left_iff, List.forall₂_same]
  exact fun k hk => tokenShape_tokenJson ht (h k hk)

theorem build_append {t' : Table} {ls : List Token} (h : build t ks = .ok t') :
    build t (ks ++ ls) = build t' ls := by
  induction ks generalizing t with
  | nil =>
      cases h
      rfl
  | cons k ks ih =>
      obtain ⟨_, hcheck, hrest⟩ := bind_ok.1 h
      rw [List.cons_append, build, hcheck]
      exact ih hrest

theorem build_toList (ht : t.Sound) : build .empty t.toList = .ok t := by
  induction ht with
  | empty => rfl
  | @add t k _ fresh hk ih =>
      have hcheck : check t k = .ok () := (check_ok hk.filled).2 ⟨fresh, hk⟩
      rw [Table.toList_add, build_append ih, build, hcheck]
      rfl

theorem chars_orNull {α : Type} {json : α → Json} {f : α → α}
    (hf : ∀ a, (json (f a)).chars = (json a).chars) (a? : Option α) :
    (orNull json (a?.map f)).chars = (orNull json a?).chars := by
  cases a? with
  | none => rfl
  | some a => exact hf a

theorem chars_num_key (x : Number) : (.num x.key : Json).chars = (.num x : Json).chars := by
  simp [Json.chars, Json.tokens, Json.Token.chars, Json.scalarChars, Json.numberChars_key]

theorem chars_windowJson (w : Window) : (windowJson w.keyed).chars = (windowJson w).chars := by
  refine Json.chars_obj_congr (.cons ⟨rfl, chars_num_key w.notBefore⟩ (.cons ⟨rfl, ?_⟩ .nil))
  exact chars_orNull chars_num_key w.expiresAt

theorem chars_tokenJson (k : Token) : (tokenJson k.settled).chars = (tokenJson k).chars := by
  have hwindow := chars_windowJson k.window
  exact Json.chars_obj_congr (.cons ⟨rfl, rfl⟩ (.cons ⟨rfl, rfl⟩ (.cons ⟨rfl, rfl⟩
    (.cons ⟨rfl, rfl⟩ (.cons ⟨rfl, hwindow⟩ (.cons ⟨rfl, rfl⟩ (.cons ⟨rfl, rfl⟩ .nil)))))))

theorem text_json (ks : List Token) : (json (ks.map Token.settled)).text = (json ks).text := by
  have hitems : (Json.arr ((ks.map Token.settled).map tokenJson)).chars =
      (Json.arr (ks.map tokenJson)).chars := by
    apply Json.chars_arr_congr
    rw [List.map_map, List.forall₂_map_left_iff, List.forall₂_map_right_iff, List.forall₂_same]
    exact fun k _ => chars_tokenJson k
  have hjson : (json (ks.map Token.settled)).chars = (json ks).chars :=
    Json.chars_obj_congr (.cons ⟨rfl, rfl⟩ (.cons ⟨rfl, hitems⟩ .nil))
  rw [Json.text, hjson, Json.text]

end Snapshot

namespace Table

variable {t : Table}

def settled (t : Table) : Table := ⟨t.tokens.map Token.settled⟩

theorem toList_settled (t : Table) : t.settled.toList = t.toList.map Token.settled :=
  List.map_reverse.symm

theorem ids_settled (t : Table) : t.settled.toList.map Token.id = t.toList.map Token.id := by
  rw [toList_settled, List.map_map]
  rfl

theorem chain_settled (t : Table) (id : String) :
    chain id t.settled.tokens = (chain id t.tokens).map Token.settled :=
  chain_map (f := Token.settled) (fun _ => ⟨rfl, rfl⟩) id t.tokens

theorem lineage_settled (t : Table) (id : String) : t.settled.lineage id = t.lineage id := by
  rw [lineage, lineage, chain_settled, List.map_map]
  rfl

theorem validate_settled (t : Table) (id : String) (instant : Number) :
    t.settled.validate id instant = t.validate id instant := by
  unfold validate
  rw [chain_settled]
  cases chain id t.tokens with
  | nil => rfl
  | cons k ks =>
      have hrevoked : ((k :: ks).map Token.settled).any Token.revoked =
          (k :: ks).any Token.revoked := by
        rw [List.any_map]
        rfl
      have hrooted : isRooted ((k :: ks).map Token.settled) = isRooted (k :: ks) := by
        rw [isRooted, isRooted, List.getLast?_map, Option.any_map]
        rfl
      have hstatus : k.settled.window.status instant = k.window.status instant :=
        Window.status_keyed k.window instant
      rw [List.map_cons] at hrevoked hrooted ⊢
      simp only [hrevoked, hrooted, hstatus]

theorem get?_settled (t : Table) (id : String) :
    t.settled.get? id = (t.get? id).map Token.settled :=
  get?_map fun _ => rfl

theorem Sound.settled (ht : Sound t) : Sound t.settled :=
  ht.map Token.terms_settled

theorem write_settled (t : Table) : Snapshot.write t.settled = Snapshot.write t := by
  rw [Snapshot.write, toList_settled, Snapshot.text_json, Snapshot.write]

theorem Sound.supports_of_mem (ht : Sound t) {k : Token} (hk : k ∈ t.toList) : t.Supports k :=
  ht.supports (ht.get?_of_mem (List.mem_reverse.1 hk))

theorem Sound.read_write (ht : Sound t) : Snapshot.read (Snapshot.write t) = .ok t.settled := by
  -- the settled table has the same text, and no number in it is a negative zero
  have hreadable : Json.Readable (Snapshot.json t.settled.toList) := by
    rw [toList_settled]
    exact Snapshot.readable_json fun k hk => (ht.supports_of_mem hk).window
  rw [Snapshot.read_ok]
  refine ⟨Snapshot.json t.settled.toList, t.settled.toList, ?_, ?_,
    Snapshot.build_toList ht.settled⟩
  · rw [← write_settled]
    exact hreadable.parse?_text
  · exact Snapshot.tokensShape_json ht.settled fun k hk => ht.settled.supports_of_mem hk

theorem snapshot_lossless :
    (∀ t : Table, t.Reached → ∃ t', Snapshot.read (Snapshot.write t) = .ok t' ∧
      t'.toList.map Token.id = t.toList.map Token.id ∧
      (∀ id instant, t'.validate id instant = t.validate id instant) ∧
      (∀ id, t'.lineage id = t.lineage id) ∧ Snapshot.write t' = Snapshot.write t) ∧
    ∀ text t, Snapshot.read text = .ok t →
      ∃ t', Snapshot.read (Snapshot.write t) = .ok t' ∧ Snapshot.write t' = Snapshot.write t := by
  have hreached (t : Table) (ht : t.Reached) := ht.sound.read_write
  refine ⟨fun t ht => ?_, fun text t h => ?_⟩
  · exact ⟨t.settled, hreached t ht, ids_settled t, validate_settled t, lineage_settled t,
      write_settled t⟩
  · exact ⟨t.settled, hreached t (.read h), write_settled t⟩

namespace Restoration

def quoted : String := "a \"b\"\n\x01"

def minusZero : Number := .finite true 0 fits_zero

def clock : Clock := fun _ => .ok minusZero

def ids : IdSource := ⟨fun n => toString n, 0⟩

def token : Token := ⟨quoted, "host", "agent", ["mail"], ⟨minusZero, some 9⟩, none, false⟩

def revoked : Table := ⟨[{ token with revoked := true }]⟩

theorem revoked_reached : revoked.Reached := by
  have hmint : (Table.empty.mint clock ids
      ⟨some quoted, "host", "agent", ["mail", "mail"], ⟨none, some 9⟩⟩).1 =
        .ok (token, ⟨[token]⟩) := by
    decide +kernel
  have hrevoke : Table.revoke ⟨[token]⟩ quoted = .ok (true, revoked) := by decide +kernel
  exact (Reached.empty.mint hmint).revoke hrevoke

def emptyText : String := "\x7b\"version\":1,\"tokens\":[]\x7d"

end Restoration

open Restoration in
theorem snapshot_lossless_of_quoted :
    (∃ t', Snapshot.read (Snapshot.write revoked) = .ok t' ∧ t'.lineage quoted = [quoted] ∧
      t'.validate quoted 5 = .revoked) ∧
    ∃ t', Snapshot.read (Snapshot.write .empty) = .ok t' ∧ Snapshot.write t' = emptyText := by
  have hlineage : revoked.lineage quoted = [quoted] := by decide +kernel
  have hstatus : revoked.validate quoted 5 = .revoked := by decide +kernel
  have hempty : Snapshot.read emptyText = .ok .empty := by decide +kernel
  have htext : Snapshot.write .empty = emptyText := by decide +kernel
  obtain ⟨t', hread, -, hsame, hline, -⟩ := snapshot_lossless.1 revoked revoked_reached
  obtain ⟨u, hagain, hfixed⟩ := snapshot_lossless.2 emptyText .empty hempty
  refine ⟨⟨t', hread, ?_, ?_⟩, u, hagain, hfixed.trans htext⟩
  · rw [hline, hlineage]
  · rw [hsame, hstatus]

end Table

end ToolGate
