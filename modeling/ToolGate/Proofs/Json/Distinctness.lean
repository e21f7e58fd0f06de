import ToolGate.Json.Parser
import ToolGate.Proofs.Json.Pruning

namespace ToolGate.Json

variable {τ : Type}

theorem foldlM_keeps {α β : Type} {f : β → α → Option β} {P : β → Prop} {as : List α} {b b' : β}
    (step : ∀ a ∈ as, ∀ b b', P b → f b a = some b' → P b') (hb : P b)
    (h : as.foldlM f b = some b') : P b' := by
  induction as generalizing b with
  | nil =>
      cases h
      exact hb
  | cons a as ih =>
      rw [List.foldlM_cons] at h
      obtain ⟨next, hnext, hrest⟩ := Option.bind_eq_some_iff.1 h
      exact ih (fun a ha => step a (List.mem_cons_of_mem _ ha))
        (step a List.mem_cons_self b next hb hnext) hrest

namespace Token

def Sound (t : Token τ) : Prop :=
  ∀ v, t = scalar v → Distinct v

variable {c : Char} {cs : List Char} {t : Token τ} {ts done : List (Token τ)} {l l' : Lexer τ}

theorem sound_of_mark? (h : mark? c = some t) : t.Sound := by
  rintro v rfl
  unfold mark? at h
  split at h <;> cases h

theorem sound_of_word? (h : word? cs = some t) : t.Sound := by
  rintro v rfl
  unfold word? at h
  split at h
  · cases h
    exact .null
  split at h
  · cases h
    exact .bool true
  split at h
  · cases h
    exact .bool false
  split at h
  · split at h
    · cases h
      exact .num _
    · cases h
  · cases h

theorem sound_of_stepBetween (hdone : ∀ t ∈ done, t.Sound)
    (h : Lexer.stepBetween done c = some l) : ∀ t ∈ l.done, t.Sound := by
  unfold Lexer.stepBetween at h
  split at h
  · cases h
    exact hdone
  split at h
  · cases h
    exact hdone
  split at h
  · rename_i t hmark
    cases h
    exact List.forall_mem_cons.2 ⟨sound_of_mark? hmark, hdone⟩
  · cases h
    exact hdone

theorem sound_of_step [Textual τ] (hl : ∀ t ∈ l.done, t.Sound) (h : l.step c = some l') :
    ∀ t ∈ l'.done, t.Sound := by
  obtain ⟨reading, done⟩ := l
  cases reading with
  | between => exact sound_of_stepBetween hl h
  | word cs =>
      simp only [Lexer.step] at h
      split at h
      · split at h
        · rename_i t hword
          exact sound_of_stepBetween (List.forall_mem_cons.2 ⟨sound_of_word? hword, hl⟩) h
        · cases h
      · cases h
        exact hl
  | string s =>
      simp only [Lexer.step] at h
      split at h
      · cases h
        refine List.forall_mem_cons.2 ⟨?_, hl⟩
        rintro v hv
        cases hv
        exact .str _
      split at h
      · cases h
        exact hl
      split at h <;> cases h
      exact hl
  | escape s =>
      simp only [Lexer.step] at h
      split at h
      · cases h
        exact hl
      · obtain ⟨d, -, hd⟩ := Option.map_eq_some_iff.1 h
        cases hd
        exact hl
  | code s left value =>
      simp only [Lexer.step] at h
      split at h
      · cases h
      · split at h <;> cases h <;> exact hl

theorem sound_of_finish (hl : ∀ t ∈ l.done, t.Sound) (h : l.finish = some ts) :
    ∀ t ∈ ts, t.Sound := by
  unfold Lexer.finish at h
  split at h
  · cases h
    simpa using hl
  · obtain ⟨t, hword, rfl⟩ := Option.map_eq_some_iff.1 h
    simpa [or_imp, forall_and] using And.symm ⟨sound_of_word? hword, hl⟩
  · cases h

theorem sound_of_lex [Textual τ] (h : lex cs = some ts) : ∀ t ∈ ts, t.Sound := by
  obtain ⟨l, hl, hfinish⟩ := Option.bind_eq_some_iff.1 h
  refine sound_of_finish (foldlM_keeps (P := fun l => ∀ t ∈ l.done, t.Sound) ?_ ?_ hl) hfinish
  · exact fun c _ l l' => sound_of_step
  · exact nofun

end Token

namespace Parser

variable {p q : Parser τ} {t : Token τ} {frames : List (Frame τ)}

def Gathered (done : Named (Json τ)) : Prop :=
  done.names.Nodup ∧ ∀ m ∈ done, Distinct m.2

def SoundFrame : Frame τ → Prop
  | .item done => ∀ v ∈ done, Distinct v
  | .member done _ => Gathered done

def SoundExpected : Expected τ → Prop
  | .next v => Distinct v
  | .name done | .colon done _ => Gathered done
  | _ => True

structure Sound (p : Parser τ) : Prop where
  expected : SoundExpected p.expected
  frames : ∀ f ∈ p.frames, SoundFrame f

theorem Gathered.put {done : Named (Json τ)} {v : Json τ} (h : Gathered done) (hv : Distinct v)
    (name : String) : Gathered (done.put name v) := by
  refine ⟨Named.nodup_put h.1 v name, fun m hm => ?_⟩
  rcases Named.mem_put hm with rfl | hm
  · exact hv
  · exact h.2 m hm

theorem gathered_nil : Gathered ([] : Named (Json τ)) := ⟨List.nodup_nil, nofun⟩

theorem sound_of_stepValue (hframes : ∀ f ∈ frames, SoundFrame f) (ht : t.Sound)
    (h : stepValue frames t = some q) : q.Sound := by
  unfold stepValue at h
  split at h <;> cases h
  · exact ⟨ht _ rfl, hframes⟩
  · exact ⟨trivial, hframes⟩
  · exact ⟨trivial, hframes⟩

theorem Sound.step [Textual τ] (hp : p.Sound) (ht : t.Sound) (h : p.step t = some q) : q.Sound := by
  obtain ⟨hexpected, hframes⟩ := hp
  have hinner {f : Frame τ} {fs : List (Frame τ)} (hfs : p.frames = f :: fs) :
      SoundFrame f ∧ ∀ f ∈ fs, SoundFrame f := by
    rw [hfs] at hframes
    exact List.forall_mem_cons.1 hframes
  unfold Parser.step at h
  split at h
  case h_1 => exact sound_of_stepValue hframes ht h
  case h_2 =>
    cases h
    exact ⟨.arr nofun, hframes⟩
  case h_3 =>
    have hitem : SoundFrame (.item [] : Frame τ) := fun v hv => absurd hv List.not_mem_nil
    exact sound_of_stepValue (List.forall_mem_cons.2 ⟨hitem, hframes⟩) ht h
  case h_4 =>
    cases h
    exact ⟨.obj List.nodup_nil nofun, hframes⟩
  case h_5 =>
    cases h
    exact ⟨gathered_nil, hframes⟩
  case h_6 heq =>
    cases h
    rw [heq] at hexpected
    exact ⟨hexpected, hframes⟩
  case h_7 heq =>
    cases h
    rw [heq] at hexpected
    exact ⟨trivial, List.forall_mem_cons.2 ⟨hexpected, hframes⟩⟩
  case h_8 heq hfs =>
    cases h
    obtain ⟨hdone, hrest⟩ := hinner hfs
    rw [heq] at hexpected
    exact ⟨trivial, List.forall_mem_cons.2 ⟨List.forall_mem_cons.2 ⟨hexpected, hdone⟩, hrest⟩⟩
  case h_9 heq hfs =>
    cases h
    obtain ⟨hdone, hrest⟩ := hinner hfs
    rw [heq] at hexpected
    refine ⟨.arr fun v hv => ?_, hrest⟩
    rcases List.mem_cons.1 (List.mem_reverse.1 hv) with rfl | hv
    · exact hexpected
    · exact hdone v hv
  case h_10 heq hfs =>
    cases h
    obtain ⟨hdone, hrest⟩ := hinner hfs
    rw [heq] at hexpected
    exact ⟨hdone.put hexpected _, hrest⟩
  case h_11 heq hfs =>
    cases h
    obtain ⟨hdone, hrest⟩ := hinner hfs
    rw [heq] at hexpected
    obtain ⟨hnames, hmembers⟩ := hdone.put hexpected _
    exact ⟨.obj hnames hmembers, hrest⟩
  case h_12 => cases h

theorem distinct_of_finish {v : Json τ} (hp : p.Sound) (h : p.finish = some v) : Distinct v := by
  unfold finish at h
  split at h <;> cases h
  exact hp.expected

end Parser

theorem distinct_of_parse? [Textual τ] {s : String} {v : Json τ} (h : parse? s = some v) :
    Distinct v := by
  obtain ⟨ts, hlex, hts⟩ := Option.bind_eq_some_iff.1 h
  obtain ⟨p, hp, hfinish⟩ := Option.bind_eq_some_iff.1 hts
  refine Parser.distinct_of_finish (foldlM_keeps (P := Parser.Sound) ?_ ?_ hp) hfinish
  · exact fun t ht p q hp => hp.step (Token.sound_of_lex hlex t ht)
  · exact ⟨trivial, nofun⟩

end ToolGate.Json
