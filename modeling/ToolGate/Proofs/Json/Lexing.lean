import ToolGate.Json.Printer

namespace ToolGate.Json.Token

variable {τ : Type}

def IsMark [Textual τ] (t : Token τ) : Prop :=
  ∃ c, t.chars = [c] ∧ mark? c = some t

structure Spells (cs : List Char) (t : Token τ) : Prop where
  word : word? cs = some t
  whole : ∀ c ∈ cs, Lexer.endsWord c = false

def Apart [Textual τ] (ts : List (Token τ)) : Prop :=
  ∀ t ∈ ts.head?, t.IsMark

inductive Lexable [Textual τ] : List (Token τ) → Prop
  | nil : Lexable []
  | mark {t ts} : t.IsMark → Lexable ts → Lexable (t :: ts)
  | string {s ts} : Lexable ts → Lexable (scalar (.str s) :: ts)
  | word {t ts} : Spells t.chars t → Apart ts → Lexable ts → Lexable (t :: ts)

inductive Lexer.Ready : Lexer τ → List (Token τ) → Prop
  | between (done : List (Token τ)) : Ready ⟨.between, done⟩ done
  | word {cs t done} : word? cs.reverse = some t → Ready ⟨.word cs, done⟩ (t :: done)

variable {l : Lexer τ} {done ts : List (Token τ)} {t : Token τ} {c : Char} {cs : List Char}

theorem spells_of_all (hword : word? cs = some t) (hwhole : cs.all (!Lexer.endsWord ·) = true) :
    Spells cs t :=
  ⟨hword, by simpa using hwhole⟩

namespace Lexer

theorem Ready.step [Textual τ] (h : Ready l done) (hc : endsWord c) :
    l.step c = stepBetween done c := by
  cases h with
  | between => rfl
  | word ht => simp [Lexer.step, hc, ht]

theorem Ready.finish (h : Ready l done) : l.finish = some done.reverse := by
  cases h with
  | between => rfl
  | word ht => simp [Lexer.finish, ht]

theorem endsWord_of_mark (h : mark? c = some t) : endsWord c := by
  have hmark : marks.contains c := by
    unfold mark? at h
    split at h <;> first | rfl | cases h
  rw [endsWord, hmark, Bool.or_true]

theorem mark?_of_not_contains (h : marks.contains c = false) :
    mark? c = (none : Option (Token τ)) := by
  unfold mark?
  split <;> first | rfl | cases h

theorem stepBetween_mark (h : mark? c = some t) : stepBetween done c = some ⟨.between, t :: done⟩ := by
  have hc := h
  unfold mark? at hc
  split at hc <;> cases hc <;> rfl

theorem stepBetween_word (h : endsWord c = false) : stepBetween done c = some ⟨.word [c], done⟩ := by
  simp only [endsWord, Bool.or_eq_false_iff, beq_eq_false_iff_ne] at h
  obtain ⟨⟨hblank, hquote⟩, hmark⟩ := h
  simp [stepBetween, hblank, hquote, mark?_of_not_contains hmark]

variable [Textual τ]

theorem foldlM_word (h : ∀ c ∈ cs, endsWord c = false) (ds : List Char) :
    cs.foldlM step ⟨.word ds, done⟩ = some ⟨.word (cs.reverse ++ ds), done⟩ := by
  induction cs generalizing ds with
  | nil => rfl
  | cons c cs ih =>
      obtain ⟨hc, hcs⟩ := List.forall_mem_cons.1 h
      have hstep : step ⟨.word ds, done⟩ c = some ⟨.word (c :: ds), done⟩ := by simp [step, hc]
      rw [List.foldlM_cons, hstep, Option.bind_eq_bind, Option.bind_some, ih hcs]
      simp

theorem foldlM_spelled (h : Spells cs t) (done : List (Token τ)) :
    ∃ l, cs.foldlM step ⟨.between, done⟩ = some l ∧ Ready l (t :: done) := by
  cases cs with
  | nil => cases h.word
  | cons c cs =>
      obtain ⟨hc, hcs⟩ := List.forall_mem_cons.1 h.whole
      have hstep : step ⟨.between, done⟩ c = some ⟨.word [c], done⟩ := stepBetween_word hc
      rw [List.foldlM_cons, hstep, Option.bind_eq_bind, Option.bind_some, foldlM_word hcs]
      exact ⟨_, rfl, .word (by simpa using h.word)⟩

theorem hexDigit?_hexChar : ∀ n < 16, hexDigit? (hexChar n) = some n := by
  decide

theorem foldlM_unitChars {u : Nat} (hu : u < 0x10000) (us : List Nat) :
    (unitChars u).foldlM step (⟨.string us, done⟩ : Lexer τ) = some ⟨.string (u :: us), done⟩ := by
  have hfirst := hexDigit?_hexChar (u / 0x1000) (by omega)
  have hsecond := hexDigit?_hexChar (u / 0x100 % 16) (by omega)
  have hthird := hexDigit?_hexChar (u / 16 % 16) (by omega)
  have hlast := hexDigit?_hexChar (u % 16) (by omega)
  have hvalue : ((u / 0x1000 * 16 + u / 0x100 % 16) * 16 + u / 16 % 16) * 16 + u % 16 = u := by
    omega
  simp [unitChars, step, hfirst, hsecond, hthird, hlast, hvalue]

theorem foldlM_escapeChars (c : Char) (us : List Nat) :
    (escapeChars c).foldlM step (⟨.string us, done⟩ : Lexer τ) =
      some ⟨.string (pushChar us c), done⟩ := by
  unfold escapeChars
  split
  · subst c; rfl
  split
  · subst c; rfl
  split
  · subst c; rfl
  split
  · subst c; rfl
  split
  · subst c; rfl
  split
  · subst c; rfl
  split
  · subst c; rfl
  split
  · rename_i hcontrol
    have hbasic : c.toNat < 0x10000 := by omega
    rw [foldlM_unitChars hbasic, pushChar, Text.charUnits, if_pos hbasic]
    rfl
  · rename_i hquote hslash _ _ _ _ _ hprint
    simp [step, hquote, hslash, hprint]

theorem foldlM_pieceChars {p : Text.Piece} (hp : ∀ u ∈ p.units, u < 0x10000) (us : List Nat) :
    (pieceChars p).foldlM step (⟨.string us, done⟩ : Lexer τ) =
      some ⟨.string (p.units.reverse ++ us), done⟩ := by
  cases p with
  | char c => exact foldlM_escapeChars c us
  | half u => exact foldlM_unitChars (hp u List.mem_cons_self) us

theorem foldlM_pieces {ps : List Text.Piece} (hps : ∀ u ∈ ps.flatMap Text.Piece.units, u < 0x10000)
    (us : List Nat) : (ps.flatMap pieceChars).foldlM step (⟨.string us, done⟩ : Lexer τ) =
      some ⟨.string ((ps.flatMap Text.Piece.units).reverse ++ us), done⟩ := by
  induction ps generalizing us with
  | nil => rfl
  | cons p ps ih =>
      rw [List.flatMap_cons] at hps
      have hp : ∀ u ∈ p.units, u < 0x10000 := fun u hu => hps u (List.mem_append_left _ hu)
      have hrest : ∀ u ∈ ps.flatMap Text.Piece.units, u < 0x10000 :=
        fun u hu => hps u (List.mem_append_right _ hu)
      rw [List.flatMap_cons, List.foldlM_append, foldlM_pieceChars hp, Option.bind_eq_bind,
        Option.bind_some, ih hrest]
      simp

theorem Ready.string (h : Ready l done) (s : τ) :
    (stringChars s).foldlM Lexer.step l = some ⟨.between, scalar (.str s) :: done⟩ := by
  have hopen : l.step '"' = some ⟨.string [], done⟩ := by
    rw [h.step (by decide)]
    rfl
  have hunits := Text.flatMap_units_pieces (Textual.bounded s)
  have hpieces : ∀ u ∈ (Text.pieces (Textual.units s)).flatMap Text.Piece.units, u < 0x10000 := by
    rw [hunits]
    exact Textual.bounded s
  have hclose : Lexer.step ⟨.string ((Textual.units s).reverse ++ []), done⟩ '"' =
      some ⟨.between, scalar (.str s) :: done⟩ := by
    simp [Lexer.step, Textual.ofUnits_units]
  rw [stringChars, List.cons_append, List.foldlM_cons, hopen, Option.bind_eq_bind,
    Option.bind_some, List.foldlM_append, foldlM_pieces hpieces, hunits, Option.bind_eq_bind,
    Option.bind_some, List.foldlM_cons, hclose]
  rfl

end Lexer

variable [Textual τ]

theorem Lexable.foldlM_step (h : Lexable ts) (hl : l.Ready done)
    (hopen : l.reading = .between ∨ Apart ts) :
    ∃ l', (ts.flatMap chars).foldlM Lexer.step l = some l' ∧ l'.Ready (ts.reverse ++ done) := by
  induction h generalizing l done with
  | nil => exact ⟨l, rfl, hl⟩
  | @mark t ts ht _ ih =>
      obtain ⟨c, hchars, hc⟩ := ht
      obtain ⟨l', hl', hready⟩ := ih (.between (t :: done)) (.inl rfl)
      refine ⟨l', ?_, by simpa using hready⟩
      rw [List.flatMap_cons, hchars, List.singleton_append, List.foldlM_cons,
        hl.step (Lexer.endsWord_of_mark hc), Lexer.stepBetween_mark hc]
      exact hl'
  | @string s ts _ ih =>
      obtain ⟨l', hl', hready⟩ := ih (.between (scalar (.str s) :: done)) (.inl rfl)
      refine ⟨l', ?_, by simpa using hready⟩
      rw [List.flatMap_cons, List.foldlM_append, chars, scalarChars, hl.string]
      exact hl'
  | @word t ts ht hapart _ ih =>
      have hbetween : l = ⟨.between, done⟩ := by
        cases hl with
        | between => rfl
        | word =>
            -- a word is open, so the tokens begin with a mark, which no word holds
            rcases hopen with hopen | hopen
            · cases hopen
            · obtain ⟨c, hchars, hc⟩ := hopen t rfl
              have hwhole := ht.whole c (by simp [hchars])
              rw [Lexer.endsWord_of_mark hc] at hwhole
              cases hwhole
      obtain ⟨l₁, hl₁, hready₁⟩ := Lexer.foldlM_spelled ht done
      obtain ⟨l', hl', hready⟩ := ih hready₁ (.inr hapart)
      refine ⟨l', ?_, by simpa using hready⟩
      rw [hbetween, List.flatMap_cons, List.foldlM_append, hl₁]
      exact hl'

theorem Lexable.lex (h : Lexable ts) : lex (ts.flatMap chars) = some ts := by
  obtain ⟨l, hl, hready⟩ := h.foldlM_step (.between []) (.inl rfl)
  rw [Token.lex, hl, Option.bind_some, hready.finish]
  simp

end ToolGate.Json.Token
