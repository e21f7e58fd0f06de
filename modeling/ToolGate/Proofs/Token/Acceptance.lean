import ToolGate.Proofs.Token.Restoration

namespace ToolGate

namespace Snapshot

open Json (Shape ReadsAs)

variable {α : Type} {k : Token} {ks : List Token}

def Tells (shape : Shape α) (v : Json) (a : α) : Prop :=
  ∃ w, ReadsAs v w ∧ ∀ b, shape (some w) = .ok b → b = a

theorem nonNegative_num {x y : Number} (h : Shape.nonNegative (some (.num x : Json)) = .ok y) :
    y = x := by
  cases (Shape.nonNegative_ok.1 h).1
  rfl

theorem filled_str {s r : String} (h : Shape.filled (some (.str s)) = .ok r) : r = s := by
  cases (Shape.filled_ok.1 h).1
  rfl

theorem tells_start (x : Number) : Tells Shape.nonNegative (.num x) x.key := by
  by_cases hx : x.isFinite
  · exact ⟨_, Json.readsAs_num hx, fun _ => nonNegative_num⟩
  · refine ⟨_, Json.readsAs_null hx, fun y hy => ?_⟩
    cases (Shape.nonNegative_ok.1 hy).1

theorem tells_orNull {β : Type} {shape : Shape α} {json : β → Json} {f : β → α} {b? : Option β}
    (h : ∀ b, b? = some b →
      ∃ w, w ≠ .null ∧ ReadsAs (json b) w ∧ ∀ a, shape (some w) = .ok a → a = f b) :
    Tells (Shape.nullable shape) (orNull json b?) (b?.map f) := by
  cases b? with
  | none =>
      refine ⟨.null, Json.Readable.null.readsAs, fun a? ha => ?_⟩
      cases ha
      rfl
  | some b =>
      obtain ⟨w, hne, hw, hmeans⟩ := h b rfl
      refine ⟨w, hw, fun a? hread => ?_⟩
      rcases Shape.nullable_ok.1 hread with ⟨hnull, -⟩ | ⟨-, a, ha, rfl⟩
      · cases hnull
        exact absurd rfl hne
      · rw [hmeans a ha, Option.map_some]

theorem tells_end {e? : Option Number} (h : ∀ e, e? = some e → e.isFinite) :
    Tells (Shape.nullable Shape.nonNegative) (orNull .num e?) (e?.map Number.key) :=
  tells_orNull fun e he =>
    ⟨.num e.key, by simp, Json.readsAs_num (h e he), fun _ => nonNegative_num⟩

theorem tells_parent (p? : Option String) :
    Tells (Shape.nullable Shape.filled) (orNull .str p?) (p?.map id) :=
  tells_orNull fun p _ => ⟨.str p, by simp, (Json.Readable.str p).readsAs, fun _ => filled_str⟩

theorem tells_list {β : Type} {shape : Shape α} {json : β → Json} {f : β → α} {bs : List β}
    (h : ∀ b ∈ bs, Tells shape (json b) (f b)) :
    ∃ ws, List.Forall₂ ReadsAs (bs.map json) ws ∧
      ∀ as, List.Forall₂ (fun w a => shape (some w) = .ok a) ws as → as = bs.map f := by
  induction bs with
  | nil => exact ⟨[], .nil, fun as has => by cases has; rfl⟩
  | cons b bs ih =>
      obtain ⟨hb, hbs⟩ := List.forall_mem_cons.1 h
      obtain ⟨w, hw, hmeans⟩ := hb
      obtain ⟨ws, hws, hall⟩ := ih hbs
      refine ⟨w :: ws, .cons hw hws, fun as has => ?_⟩
      cases has with
      | cons ha has => rw [hmeans _ ha, hall _ has, List.map_cons]

theorem tells_scope (scope : List String) :
    Tells (Shape.filledList Shape.filled) (.arr (scope.map .str)) (scope.map id) := by
  have hresource (s : String) : Tells Shape.filled (.str s) (id s) :=
    ⟨_, (Json.Readable.str s).readsAs, fun _ => filled_str⟩
  obtain ⟨ws, hws, hall⟩ := tells_list fun s (_ : s ∈ scope) => hresource s
  refine ⟨_, Json.readsAs_arr hws, fun b hb => ?_⟩
  obtain ⟨vs, hvs, -, hbs⟩ := Shape.filledList_ok.1 hb
  cases hvs
  exact hall b hbs

theorem tells_window {w : Window} (h : ∀ e, w.expiresAt = some e → e.isFinite) :
    Tells windowShape (windowJson w) w.keyed := by
  obtain ⟨start, hstart, hs⟩ := tells_start w.notBefore
  obtain ⟨last, hlast, hl⟩ := tells_end h
  refine ⟨.obj [("notBefore", start), ("expiresAt", last)], Json.readsAs_obj (by simp [Named.names])
    (.cons ⟨rfl, hstart⟩ (.cons ⟨rfl, hlast⟩ .nil)), fun u hu => ?_⟩
  simp only [windowShape, bind_ok, pure_ok, Shape.member_ok, Shape.object_ok] at hu
  obtain ⟨ms, hms, x, hx, e?, he, -, -, rfl⟩ := hu
  cases hms
  rw [hs x hx, hl e? he]
  rfl

theorem tells_token (h : ∀ e, k.window.expiresAt = some e → e.isFinite) :
    Tells tokenShape (tokenJson k) k.settled := by
  have hstr (s : String) : ReadsAs (.str s) (.str s) := (Json.Readable.str s).readsAs
  obtain ⟨scope, hscope, hs⟩ := tells_scope k.scope
  obtain ⟨window, hwindow, hw⟩ := tells_window h
  obtain ⟨parent, hparent, hp⟩ := tells_parent k.parent
  refine ⟨.obj [("id", .str k.id), ("issuer", .str k.issuer), ("subject", .str k.subject),
    ("scope", scope), ("validity", window), ("parentId", parent), ("revoked", .bool k.revoked)],
    Json.readsAs_obj (by simp [Named.names]) (.cons ⟨rfl, hstr _⟩ (.cons ⟨rfl, hstr _⟩
      (.cons ⟨rfl, hstr _⟩ (.cons ⟨rfl, hscope⟩ (.cons ⟨rfl, hwindow⟩ (.cons ⟨rfl, hparent⟩
        (.cons ⟨rfl, (Json.Readable.bool _).readsAs⟩ .nil))))))), fun l hl => ?_⟩
  simp only [tokenShape, bind_ok, pure_ok, Shape.member_ok, Shape.object_ok] at hl
  obtain ⟨ms, hms, id, hid, issuer, hissuer, subject, hsubject, rs, hrs, u, hu, p?, hp?, revoked,
    hrevoked, -, -, rfl⟩ := hl
  cases hms
  cases Shape.boolean_ok.1 hrevoked
  rw [filled_str hid, filled_str hissuer, filled_str hsubject, hs rs hrs, hw u hu, hp p? hp?,
    List.map_id, Option.map_id]
  rfl

theorem tells_tokens (h : ∀ k ∈ ks, ∀ e, k.window.expiresAt = some e → e.isFinite) :
    Tells tokensShape (json ks) (ks.map Token.settled) := by
  obtain ⟨ws, hws, hall⟩ := tells_list fun k hk => tells_token (h k hk)
  refine ⟨.obj [("version", .num 1), ("tokens", .arr ws)], Json.readsAs_obj (by simp [Named.names])
    (.cons ⟨rfl, (Json.readable_nat (by decide)).readsAs⟩ (.cons ⟨rfl, Json.readsAs_arr hws⟩ .nil)),
    fun ls hls => ?_⟩
  simp only [tokensShape, bind_ok, pure_ok, Shape.member_ok, Shape.object_ok, Shape.list_ok] at hls
  obtain ⟨ms, hms, -, -, as, ⟨vs, hvs, has⟩, -, -, rfl⟩ := hls
  cases hms
  cases hvs
  exact hall as has

theorem build_tokens {t t' : Table} (h : build t ks = .ok t') :
    t'.tokens = ks.reverse ++ t.tokens := by
  induction ks generalizing t with
  | nil =>
      cases h
      rfl
  | cons k ks ih =>
      obtain ⟨_, -, hrest⟩ := bind_ok.1 h
      rw [ih hrest, List.reverse_cons, List.append_assoc]
      rfl

end Snapshot

namespace Table

variable {t t' : Table}

theorem settled_of_read_write
    (hfinite : ∀ k ∈ t.tokens, ∀ e, k.window.expiresAt = some e → e.isFinite)
    (h : Snapshot.read (Snapshot.write t) = .ok t') : t' = t.settled := by
  obtain ⟨v, ks, hv, hks, hbuild⟩ := Snapshot.read_ok.1 h
  obtain ⟨w, hw, hmeans⟩ := Snapshot.tells_tokens fun k hk => hfinite k (List.mem_reverse.1 hk)
  obtain rfl : v = w := Option.some_inj.1 (hv.symm.trans hw.parse?_text)
  have htokens := Snapshot.build_tokens hbuild
  rw [hmeans ks hks, ← List.map_reverse, List.reverse_reverse, empty, List.append_nil] at htokens
  exact congrArg Table.mk htokens

theorem sound_of_read_write
    (hfinite : ∀ k ∈ t.tokens, ∀ e, k.window.expiresAt = some e → e.isFinite)
    (h : Snapshot.read (Snapshot.write t) = .ok t') : t.Sound := by
  have hsound : t'.Sound := (Reached.read h).sound
  rw [settled_of_read_write hfinite h] at hsound
  exact hsound.of_map Token.terms_settled

end Table

end ToolGate
