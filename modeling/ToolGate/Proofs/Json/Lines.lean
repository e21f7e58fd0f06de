import ToolGate.Proofs.Json.Reading

namespace ToolGate.Json

variable {τ : Type}

namespace Token

variable {ts done : List (Token τ)} {t : Token τ} {c : Char} {cs : List Char}

theorem newline_ne_hexChar : ∀ n < 16, '\n' ≠ hexChar n := by
  decide

theorem newline_notMem_unitChars {u : Nat} (h : u < 0x10000) : '\n' ∉ unitChars u := by
  have hfirst := newline_ne_hexChar (u / 0x1000) (by omega)
  have hsecond := newline_ne_hexChar (u / 0x100 % 16) (by omega)
  have hthird := newline_ne_hexChar (u / 16 % 16) (by omega)
  have hlast := newline_ne_hexChar (u % 16) (by omega)
  simp [unitChars, hfirst, hsecond, hthird, hlast]

theorem newline_notMem_escapeChars (c : Char) : '\n' ∉ escapeChars c := by
  unfold escapeChars
  split
  · decide
  split
  · decide
  split
  · decide
  split
  · decide
  split
  · decide
  split
  · decide
  split
  · decide
  split
  · exact newline_notMem_unitChars (by omega)
  · rename_i hnewline _ _ _
    simpa using Ne.symm hnewline

theorem done_of_stepBetween {l : Lexer τ} (h : Lexer.stepBetween done c = some l)
    (hl : l = ⟨.between, []⟩) : done = [] ∧ blank c := by
  subst hl
  unfold Lexer.stepBetween at h
  split at h
  · rename_i hc
    cases h
    exact ⟨rfl, hc⟩
  split at h
  · cases h
  split at h <;> cases h

theorem Lexer.Ready.done_ne_nil {l : Lexer τ} (h : l.Ready done) (hl : l ≠ ⟨.between, []⟩) :
    done ≠ [] := by
  cases h with
  | between done =>
      rintro rfl
      exact hl rfl
  | word _ => simp

variable [Textual τ]

theorem newline_notMem_stringChars (s : τ) : '\n' ∉ stringChars s := by
  have hpiece : ∀ p ∈ Text.pieces (Textual.units s), '\n' ∉ pieceChars p := by
    intro p hp
    cases p with
    | char c => exact newline_notMem_escapeChars c
    | half u =>
        have hu : u ∈ Textual.units s := by
          rw [← Text.flatMap_units_pieces (Textual.bounded s)]
          exact List.mem_flatMap.2 ⟨_, hp, List.mem_singleton_self u⟩
        exact newline_notMem_unitChars (Textual.bounded s u hu)
  simpa [stringChars] using hpiece

theorem Lexable.newline_notMem (h : Lexable ts) : '\n' ∉ ts.flatMap chars := by
  induction h with
  | nil => simp
  | @mark t ts ht _ ih =>
      obtain ⟨c, hchars, hc⟩ := ht
      rw [List.flatMap_cons, hchars, List.singleton_append, List.mem_cons, not_or]
      refine ⟨?_, ih⟩
      rintro rfl
      cases hc
  | @string s ts _ ih =>
      rw [List.flatMap_cons, List.mem_append, not_or]
      refine ⟨?_, ih⟩
      exact newline_notMem_stringChars s
  | @word t ts ht _ _ ih =>
      rw [List.flatMap_cons, List.mem_append, not_or]
      refine ⟨fun hmem => ?_, ih⟩
      cases ht.whole _ hmem

theorem foldlM_blank (h : ∀ c ∈ cs, blank c) (done : List (Token τ)) :
    cs.foldlM Lexer.step ⟨.between, done⟩ = some ⟨.between, done⟩ := by
  induction cs with
  | nil => rfl
  | cons c cs ih =>
      obtain ⟨hc, hcs⟩ := List.forall_mem_cons.1 h
      have hstep : Lexer.step ⟨.between, done⟩ c = some ⟨.between, done⟩ := if_pos hc
      rw [List.foldlM_cons, hstep]
      exact ih hcs

theorem lex_blank_append (h : ∀ c ∈ cs, blank c) (ds : List Char) :
    lex (cs ++ ds) = (lex ds : Option (List (Token τ))) := by
  rw [lex, List.foldlM_append, foldlM_blank h]
  rfl

theorem step_eq_start {l : Lexer τ} (h : l.step c = some ⟨.between, []⟩) :
    l = ⟨.between, []⟩ ∧ blank c := by
  obtain ⟨reading, done⟩ := l
  cases reading with
  | between =>
      obtain ⟨hdone, hc⟩ := done_of_stepBetween h rfl
      exact ⟨congrArg (Lexer.mk .between) hdone, hc⟩
  | word cs =>
      simp only [Lexer.step] at h
      split at h
      · split at h
        · cases (done_of_stepBetween h rfl).1
        · cases h
      · cases h
  | string s =>
      simp only [Lexer.step] at h
      split at h
      · cases h
      split at h
      · cases h
      split at h <;> cases h
  | escape s =>
      simp only [Lexer.step] at h
      split at h
      · cases h
      · obtain ⟨d, -, hd⟩ := Option.map_eq_some_iff.1 h
        cases hd
  | code s left value =>
      simp only [Lexer.step] at h
      split at h
      · cases h
      · split at h <;> cases h

theorem foldlM_eq_start {l : Lexer τ} (h : cs.foldlM Lexer.step l = some ⟨.between, []⟩) :
    l = ⟨.between, []⟩ ∧ ∀ c ∈ cs, blank c := by
  induction cs generalizing l with
  | nil =>
      cases h
      exact ⟨rfl, by simp⟩
  | cons c cs ih =>
      rw [List.foldlM_cons] at h
      obtain ⟨l', hstep, hrest⟩ := Option.bind_eq_some_iff.1 h
      obtain ⟨rfl, hcs⟩ := ih hrest
      obtain ⟨hl, hc⟩ := step_eq_start hstep
      exact ⟨hl, List.forall_mem_cons.2 ⟨hc, hcs⟩⟩

end Token

namespace Parser

def Begun (p : Parser τ) : Prop :=
  p.expected = .value → p.frames ≠ []

variable [Textual τ]

theorem begun_step {p q : Parser τ} {t : Token τ} (h : p.step t = some q) : q.Begun := by
  have hvalue {frames : List (Frame τ)} {q : Parser τ} (h : stepValue frames t = some q) :
      q.Begun := by
    unfold stepValue at h
    split at h <;> cases h <;> simp [Begun]
  unfold step at h
  split at h
  · exact hvalue h
  · cases h
    simp [Begun]
  · exact hvalue h
  all_goals
    cases h
    try simp [Begun]

theorem begun_foldlM {p q : Parser τ} {ts : List (Token τ)} (hp : p.Begun)
    (h : ts.foldlM step p = some q) : q.Begun := by
  induction ts generalizing p with
  | nil =>
      cases h
      exact hp
  | cons t ts ih =>
      rw [List.foldlM_cons] at h
      obtain ⟨p', hstep, hrest⟩ := Option.bind_eq_some_iff.1 h
      exact ih (begun_step hstep) hrest

theorem finish_object {p : Parser τ} (hp : p.Begun) {ms : Named (Json τ)} (h : Readable (.obj ms)) :
    ((tokens (.obj ms) []).foldlM step p).bind finish = none := by
  obtain ⟨expected, frames⟩ := p
  have hpasses := passes_of_readable h
  cases expected with
  | value =>
      rw [hpasses frames []]
      cases frames with
      | nil => exact absurd rfl (hp rfl)
      | cons f fs => rfl
  | itemOrEnd =>
      rw [foldlM_first, hpasses _ []]
      rfl
  | nameOrEnd => rfl
  | name done => rfl
  | colon done name => rfl
  | next v =>
      cases frames with
      | nil => rfl
      | cons f fs => cases f <;> rfl

end Parser

variable [Textual τ]

theorem Readable.newline_notMem {v : Json τ} (h : Readable v) : '\n' ∉ v.chars :=
  (h.lexable (by simp [Token.Apart]) .nil).newline_notMem

theorem parse?_blank_append {cs : List Char} (h : ∀ c ∈ cs, Token.blank c) (ds : List Char) :
    parse? (String.ofList (cs ++ ds)) = (parse? (String.ofList ds) : Option (Json τ)) := by
  rw [parse?, parse?, String.toList_ofList, String.toList_ofList, Token.lex_blank_append h]

theorem ofTokens?_append {ts : List (Token τ)} (hts : ts ≠ []) {ms : Named (Json τ)}
    (h : Readable (.obj ms)) : ofTokens? (ts ++ tokens (.obj ms) []) = none := by
  obtain ⟨t, ts, rfl⟩ := List.exists_cons_of_ne_nil hts
  rw [ofTokens?, List.cons_append, List.foldlM_cons]
  cases hstep : Parser.start.step t with
  | none => rfl
  | some p =>
      rw [Option.bind_eq_bind, Option.bind_some, List.foldlM_append]
      cases hfold : ts.foldlM Parser.step p with
      | none => rfl
      | some q => exact Parser.finish_object (Parser.begun_foldlM (Parser.begun_step hstep) hfold) h

theorem exists_chars (v : Json τ) (ms : Named (Json τ)) : ∃ cs,
    (Json.obj (("id", v) :: ms)).chars = '{' :: '"' :: 'i' :: 'd' :: '"' :: cs := by
  have hname : stringChars (Textual.ofString "id" : τ) = ['"', 'i', 'd', '"'] := by
    rw [stringChars, Textual.units_ofString]
    rfl
  cases ms <;> exact ⟨_, by simp [chars, tokens, memberTokens, Token.chars, scalarChars, hname]; rfl⟩

theorem Token.lex_append_of_ready {cs : List Char} {l : Lexer τ} {done : List (Token τ)}
    (hl : cs.foldlM Lexer.step ⟨.between, []⟩ = some l) (hready : l.Ready done) {ms : Named (Json τ)}
    (h : Readable (.obj ms)) :
    lex (cs ++ (Json.obj ms).chars) = some (done.reverse ++ tokens (.obj ms) []) := by
  have hlexable : Lexable (tokens (.obj ms) []) := h.lexable (by simp [Token.Apart]) .nil
  obtain ⟨l', hl', hready'⟩ := hlexable.foldlM_step hready
    (.inr (apart_mark ⟨'\x7b', rfl, rfl⟩))
  rw [lex, List.foldlM_append, hl, Option.bind_eq_bind, Option.bind_some, Json.chars, hl',
    Option.bind_some, hready'.finish]
  simp

theorem Token.lex_append_of_not_ready {cs ds : List Char} {l : Lexer τ}
    (hl : cs.foldlM Lexer.step ⟨.between, []⟩ = some l) (hready : ∀ done, ¬l.Ready done) :
    lex (cs ++ '\x7b' :: '"' :: 'i' :: 'd' :: '"' :: ds) = (none : Option (List (Token τ))) := by
  obtain ⟨reading, done⟩ := l
  rw [lex, List.foldlM_append, hl, Option.bind_eq_bind, Option.bind_some]
  cases reading with
  | between => exact absurd (.between done) (hready done)
  | word cs =>
      have hword : (word? cs.reverse : Option (Token τ)) = none := by
        cases hword : (word? cs.reverse : Option (Token τ)) with
        | none => rfl
        | some t => exact absurd (.word hword) (hready _)
      have hstep : Lexer.step ⟨.word cs, done⟩ '\x7b' = none := by
        have hends : Lexer.endsWord '\x7b' = true := rfl
        simp only [Lexer.step, hends, if_true, hword]
      rw [List.foldlM_cons, hstep]
      rfl
  | string s => rfl
  | escape s => rfl
  | code s left value => rfl

theorem parse?_append {cs : List Char} (hcs : ∃ c ∈ cs, Token.blank c = false) {v : Json τ}
    {ms : Named (Json τ)} (h : Readable (.obj (("id", v) :: ms))) :
    parse? (String.ofList (cs ++ (Json.obj (("id", v) :: ms)).chars)) =
      (none : Option (Json τ)) := by
  rw [parse?, String.toList_ofList]
  cases hl : cs.foldlM Token.Lexer.step (⟨.between, []⟩ : Token.Lexer τ) with
  | none =>
      rw [Token.lex, List.foldlM_append, hl]
      rfl
  | some l =>
      by_cases hready : ∃ done, l.Ready done
      · obtain ⟨done, hready⟩ := hready
        rw [Token.lex_append_of_ready hl hready h, Option.bind_some]
        refine ofTokens?_append ?_ h
        rw [ne_eq, List.reverse_eq_nil_iff]
        refine hready.done_ne_nil ?_
        rintro rfl
        obtain ⟨c, hc, hblank⟩ := hcs
        rw [(Token.foldlM_eq_start hl).2 c hc] at hblank
        cases hblank
      · obtain ⟨ds, hds⟩ := exists_chars v ms
        rw [hds, Token.lex_append_of_not_ready hl (not_exists.1 hready)]
        rfl

end ToolGate.Json
