import ToolGate.Json.Parser
import ToolGate.Proofs.Json.Lexing
import ToolGate.Proofs.Json.Writing
import ToolGate.Proofs.Number.Printing

namespace ToolGate

theorem Named.put_of_notMem {α : Type} {xs : Named α} {name : String} (h : name ∉ xs.names) (a : α) :
    put name a xs = xs ++ [(name, a)] := by
  induction xs with
  | nil => rfl
  | cons x xs ih =>
      obtain ⟨k, b⟩ := x
      simp only [names, List.map_cons, List.mem_cons, not_or] at h
      rw [put, if_neg (Ne.symm h.1), ih h.2]
      rfl

theorem Named.put_of_distinct {α : Type} {xs ys : Named α} {name : String} {a : α}
    (h : (xs ++ (name, a) :: ys).names.Nodup) : put name a xs = xs ++ [(name, a)] := by
  simp only [names, List.map_append, List.map_cons, List.nodup_append] at h
  exact put_of_notMem (fun hmem => h.2.2 name hmem name (by simp) rfl) a

namespace Json

open Token (Spells Lexable IsMark)

variable {τ : Type}

namespace Token

theorem endsWord_of_isDigit {c : Char} (h : c.isDigit) : Lexer.endsWord c = false := by
  have hne {d : Char} (hd : d.isDigit = false) : c ≠ d := by
    rintro rfl
    rw [hd] at h
    cases h
  simp [Lexer.endsWord, blank, marks, hne]

theorem spells_proper {x : Numeral} (h : x.Proper) :
    Spells x.chars (.scalar (.num x.number : Json τ)) := by
  have hword {w : String} (hw : Numeral.parse? w.toList = none) : x.chars ≠ w.toList := by
    intro heq
    rw [← heq, h.parse?_chars] at hw
    cases hw
  have hmarks : ['-', '.', 'e', '+'].all (!Lexer.endsWord ·) := by decide
  refine ⟨?_, fun c hc => ?_⟩
  · rw [word?, if_neg (hword (by decide)), if_neg (hword (by decide)), if_neg (hword (by decide)),
      h.parse?_chars]
    simp only [h.canonical, if_true]
  · rcases h.isDigit_of_mem hc with hdigit | hmark
    · exact endsWord_of_isDigit hdigit
    · simpa using List.all_eq_true.1 hmarks c hmark

end Token

inductive Readable : Json τ → Prop
  | null : Readable .null
  | bool (b) : Readable (.bool b)
  | num {x} : Spells (numberChars x) (.scalar (.num x : Json τ)) → Readable (.num x)
  | str (s) : Readable (.str s)
  | arr {items} : (∀ v ∈ items, Readable v) → Readable (.arr items)
  | obj {members : Named (Json τ)} : members.names.Nodup → (∀ m ∈ members, Readable m.2) →
      Readable (.obj members)

theorem numberChars_key (x : Number) : numberChars x.key = numberChars x :=
  Number.apply_key (fun _ => rfl) x

theorem readable_key {x : Number} (hx : x.isFinite) : Readable (.num x.key : Json τ) := by
  obtain ⟨y, hy, hchars, hnumber⟩ := Number.exists_numeral hx
  have hsame : numberChars x.key = y.chars := by
    rw [numberChars_key, hchars]
    cases x with
    | finite => rfl
    | _ => cases hx
  refine .num ?_
  rw [hsame, ← hnumber]
  exact Token.spells_proper hy

theorem readable_nat {n : Nat} (h : n ≤ significandLimit) : Readable (.num (.ofNat n) : Json τ) := by
  have hkey : (Number.ofNat n).key = .ofNat n := by
    rw [Number.ofNat_eq h]
    rfl
  rw [← hkey]
  refine readable_key ?_
  rw [Number.ofNat_eq h]
  rfl

variable [Textual τ] {v : Json τ} {items : List (Json τ)} {members : Named (Json τ)}
  {rest : List (Token τ)}

theorem apart_mark {t : Token τ} (h : t.IsMark) : Token.Apart (t :: rest) := by
  intro u hu
  cases hu
  exact h

theorem lexable_itemTokens
    (h : ∀ v ∈ items, ∀ rest, Token.Apart rest → Lexable rest → Lexable (tokens v rest))
    (hapart : Token.Apart rest) (hrest : Lexable rest) : Lexable (itemTokens items rest) := by
  induction items with
  | nil => exact hrest
  | cons v vs ih =>
      obtain ⟨hv, hvs⟩ := List.forall_mem_cons.1 h
      cases vs with
      | nil => exact hv rest hapart hrest
      | cons w ws =>
          have hcomma : (Token.comma : Token τ).IsMark := ⟨',', rfl, rfl⟩
          exact hv _ (apart_mark hcomma) (.mark hcomma (ih hvs))

theorem lexable_memberTokens
    (h : ∀ m ∈ members, ∀ rest, Token.Apart rest → Lexable rest → Lexable (tokens m.2 rest))
    (hapart : Token.Apart rest) (hrest : Lexable rest) : Lexable (memberTokens members rest) := by
  induction members with
  | nil => exact hrest
  | cons m ms ih =>
      obtain ⟨name, v⟩ := m
      obtain ⟨hv, hms⟩ := List.forall_mem_cons.1 h
      have hcolon : (Token.colon : Token τ).IsMark := ⟨':', rfl, rfl⟩
      have hcomma : (Token.comma : Token τ).IsMark := ⟨',', rfl, rfl⟩
      cases ms with
      | nil => exact .string (.mark hcolon (hv rest hapart hrest))
      | cons m ms =>
          exact .string (.mark hcolon (hv _ (apart_mark hcomma) (.mark hcomma (ih hms))))

theorem Readable.lexable (h : Readable v) (hapart : Token.Apart rest) (hrest : Lexable rest) :
    Lexable (tokens v rest) := by
  induction h generalizing rest with
  | null => exact .word (Token.spells_of_all rfl rfl) hapart hrest
  | bool b => cases b <;> exact .word (Token.spells_of_all rfl rfl) hapart hrest
  | num hx => exact .word hx hapart hrest
  | str s => exact .string hrest
  | arr _ ih =>
      have hclose : (Token.closeArray : Token τ).IsMark := ⟨']', rfl, rfl⟩
      exact .mark ⟨'[', rfl, rfl⟩ (lexable_itemTokens (fun v hv _ => ih v hv) (apart_mark hclose)
        (.mark hclose hrest))
  | obj _ _ ih =>
      have hclose : (Token.closeObject : Token τ).IsMark := ⟨'}', rfl, rfl⟩
      exact .mark ⟨'{', rfl, rfl⟩ (lexable_memberTokens (fun m hm _ => ih m hm) (apart_mark hclose)
        (.mark hclose hrest))

namespace Parser

def Passes (v : Json τ) : Prop :=
  ∀ frames rest, (tokens v rest).foldlM step ⟨.value, frames⟩ = rest.foldlM step ⟨.next v, frames⟩

theorem foldlM_first (v : Json τ) (frames : List (Frame τ)) (rest : List (Token τ)) :
    (tokens v rest).foldlM step ⟨.itemOrEnd, frames⟩ =
      (tokens v rest).foldlM step ⟨.value, .item [] :: frames⟩ := by
  cases v <;> rfl

theorem foldlM_itemTokens {vs done : List (Json τ)} {frames : List (Frame τ)}
    (h : ∀ w ∈ v :: vs, Passes w) :
    (itemTokens (v :: vs) (.closeArray :: rest)).foldlM step ⟨.value, .item done :: frames⟩ =
      rest.foldlM step ⟨.next (.arr (done.reverse ++ v :: vs)), frames⟩ := by
  induction vs generalizing v done with
  | nil =>
      rw [itemTokens, h v (by simp)]
      simp [step]
  | cons w ws ih =>
      obtain ⟨hv, hws⟩ := List.forall_mem_cons.1 h
      rw [itemTokens_cons, hv]
      have hrest : (itemTokens (w :: ws) (.closeArray :: rest)).foldlM step
          ⟨.value, .item (v :: done) :: frames⟩ =
          rest.foldlM step ⟨.next (.arr ((v :: done).reverse ++ w :: ws)), frames⟩ := ih hws
      simpa [step] using hrest

theorem foldlM_memberTokens {name : String} {ms done : Named (Json τ)} {frames : List (Frame τ)}
    (h : ∀ m ∈ (name, v) :: ms, Passes m.2) (distinct : (done ++ (name, v) :: ms).names.Nodup) :
    (memberTokens ((name, v) :: ms) (.closeObject :: rest)).foldlM step ⟨.name done, frames⟩ =
      rest.foldlM step ⟨.next (.obj (done ++ (name, v) :: ms)), frames⟩ := by
  -- the members done so far grow by one that none of them has the name of
  induction ms generalizing name v done with
  | nil =>
      have hv : Passes v := h (name, v) (by simp)
      have hfold := hv (.member done name :: frames) (.closeObject :: rest)
      simpa [memberTokens, step, Textual.whole_ofString, Named.put_of_distinct distinct] using hfold
  | cons m ms ih =>
      obtain ⟨other, w⟩ := m
      obtain ⟨hv, hms⟩ := List.forall_mem_cons.1 h
      have hput := Named.put_of_distinct distinct
      have hdistinct : (done ++ [(name, v)] ++ (other, w) :: ms : Named (Json τ)).names.Nodup := by
        simpa using distinct
      have hfold := hv (.member done name :: frames)
        (.comma :: memberTokens ((other, w) :: ms) (.closeObject :: rest))
      have hrest := ih hms hdistinct
      rw [List.append_assoc, List.singleton_append, ← hput] at hrest
      rw [← hrest, memberTokens_cons]
      simpa [step, Textual.whole_ofString] using hfold

theorem passes_of_readable (h : Readable v) : Passes v := by
  induction h with
  | null => exact fun _ _ => rfl
  | bool b => exact fun _ _ => rfl
  | num _ => exact fun _ _ => rfl
  | str s => exact fun _ _ => rfl
  | @arr items _ ih =>
      intro frames rest
      cases items with
      | nil => rfl
      | cons v vs =>
          calc (tokens (.arr (v :: vs)) rest).foldlM step ⟨.value, frames⟩
              = (itemTokens (v :: vs) (.closeArray :: rest)).foldlM step ⟨.itemOrEnd, frames⟩ := rfl
            _ = (itemTokens (v :: vs) (.closeArray :: rest)).foldlM step
                ⟨.value, .item [] :: frames⟩ := by cases vs <;> exact foldlM_first v frames _
            _ = rest.foldlM step ⟨.next (.arr (v :: vs)), frames⟩ := foldlM_itemTokens ih
  | @obj members distinct _ ih =>
      intro frames rest
      cases members with
      | nil => rfl
      | cons m ms =>
          obtain ⟨name, v⟩ := m
          calc (tokens (.obj ((name, v) :: ms)) rest).foldlM step ⟨.value, frames⟩
              = (memberTokens ((name, v) :: ms) (.closeObject :: rest)).foldlM step
                ⟨.nameOrEnd, frames⟩ := rfl
            _ = (memberTokens ((name, v) :: ms) (.closeObject :: rest)).foldlM step
                ⟨.name [], frames⟩ := by cases ms <;> rfl
            _ = rest.foldlM step ⟨.next (.obj ((name, v) :: ms)), frames⟩ :=
                foldlM_memberTokens ih distinct

end Parser

theorem Readable.parse?_text (h : Readable v) : parse? v.text = some v := by
  have hlex : Token.lex v.text.toList = some (tokens v []) := by
    rw [text, String.toList_ofList]
    exact (h.lexable (by simp [Token.Apart]) .nil).lex
  rw [parse?, hlex, Option.bind_some, ofTokens?, Parser.start, Parser.passes_of_readable h]
  rfl

structure ReadsAs (v w : Json τ) : Prop where
  chars : w.chars = v.chars
  readable : Readable w

theorem ReadsAs.parse?_text {v w : Json τ} (h : ReadsAs v w) : parse? v.text = some w := by
  rw [text, ← h.chars]
  exact h.readable.parse?_text

theorem Readable.readsAs (h : Readable v) : ReadsAs v v :=
  ⟨rfl, h⟩

theorem readsAs_num {x : Number} (hx : x.isFinite) : ReadsAs (.num x : Json τ) (.num x.key) where
  chars := by simp [chars, tokens, Token.chars, scalarChars, numberChars_key]
  readable := readable_key hx

theorem readsAs_null {x : Number} (hx : ¬x.isFinite) : ReadsAs (.num x : Json τ) .null where
  chars := by
    cases x with
    | finite => exact absurd rfl hx
    | nan | infinite => rfl
  readable := .null

theorem readsAs_arr {vs ws : List (Json τ)} (h : List.Forall₂ ReadsAs vs ws) :
    ReadsAs (.arr vs) (.arr ws) where
  chars := (chars_arr_congr (h.imp fun _ _ hvw => hvw.chars.symm)).symm
  readable := .arr <| by
    induction h with
    | nil => simp
    | cons hv _ ih => exact List.forall_mem_cons.2 ⟨hv.readable, ih⟩

theorem readsAs_obj {ms ns : Named (Json τ)} (distinct : ns.names.Nodup)
    (h : List.Forall₂ (fun m n => m.1 = n.1 ∧ ReadsAs m.2 n.2) ms ns) :
    ReadsAs (.obj ms) (.obj ns) where
  chars := (chars_obj_congr (h.imp fun _ _ hmn => ⟨hmn.1, hmn.2.chars.symm⟩)).symm
  readable := .obj distinct <| by
    clear distinct
    induction h with
    | nil => simp
    | cons hm _ ih => exact List.forall_mem_cons.2 ⟨hm.2.readable, ih⟩

end Json

end ToolGate
