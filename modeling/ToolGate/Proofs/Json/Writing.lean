import Mathlib.Data.List.Forall2
import ToolGate.Json.Printer

namespace ToolGate.Json

variable {τ : Type} [Textual τ]

theorem itemTokens_cons (v w : Json τ) (vs : List (Json τ)) (rest : List (Token τ)) :
    itemTokens (v :: w :: vs) rest = tokens v (.comma :: itemTokens (w :: vs) rest) := rfl

theorem memberTokens_cons (name : String) (v : Json τ) (m : String × Json τ)
    (ms : List (String × Json τ)) (rest : List (Token τ)) :
    memberTokens ((name, v) :: m :: ms) rest =
      .scalar (.str (Textual.ofString name)) :: .colon ::
        tokens v (.comma :: memberTokens (m :: ms) rest) := rfl

mutual

theorem tokens_append : ∀ (v : Json τ) (rest : List (Token τ)), tokens v rest = tokens v [] ++ rest
  | .arr items, rest => by
      rw [tokens, tokens, itemTokens_append items (.closeArray :: rest),
        itemTokens_append items [.closeArray]]
      simp
  | .obj members, rest => by
      rw [tokens, tokens, memberTokens_append members (.closeObject :: rest),
        memberTokens_append members [.closeObject]]
      simp
  | .null, _ => rfl
  | .bool _, _ => rfl
  | .num _, _ => rfl
  | .str _, _ => rfl

theorem itemTokens_append : ∀ (items : List (Json τ)) (rest : List (Token τ)),
    itemTokens items rest = itemTokens items [] ++ rest
  | [], _ => rfl
  | [v], rest => tokens_append v rest
  | v :: w :: vs, rest => by
      rw [itemTokens_cons, itemTokens_cons, itemTokens_append (w :: vs) rest, tokens_append v,
        tokens_append v (.comma :: itemTokens (w :: vs) [])]
      simp

theorem memberTokens_append : ∀ (members : List (String × Json τ)) (rest : List (Token τ)),
    memberTokens members rest = memberTokens members [] ++ rest
  | [], _ => rfl
  | [(name, v)], rest => by
      rw [memberTokens, memberTokens, tokens_append v rest]
      rfl
  | (name, v) :: m :: ms, rest => by
      rw [memberTokens_cons, memberTokens_cons, memberTokens_append (m :: ms) rest,
        tokens_append v, tokens_append v (.comma :: memberTokens (m :: ms) [])]
      simp

end

theorem flatMap_tokens (v : Json τ) (rest : List (Token τ)) :
    (tokens v rest).flatMap Token.chars = v.chars ++ rest.flatMap Token.chars := by
  rw [tokens_append, List.flatMap_append]
  rfl

theorem chars_arr_congr {vs ws : List (Json τ)}
    (h : List.Forall₂ (fun v w => v.chars = w.chars) vs ws) :
    (arr vs).chars = (arr ws).chars := by
  have hitems (rest : List (Token τ)) : (itemTokens vs rest).flatMap Token.chars =
      (itemTokens ws rest).flatMap Token.chars := by
    induction h with
    | nil => rfl
    | @cons v w vs ws hvw htail ih =>
        cases htail with
        | nil => rw [itemTokens, itemTokens, flatMap_tokens, flatMap_tokens, hvw]
        | cons _ _ =>
            rw [itemTokens_cons, itemTokens_cons, flatMap_tokens, flatMap_tokens, hvw,
              List.flatMap_cons, List.flatMap_cons, ih]
  simp only [chars, tokens, List.flatMap_cons, hitems]

theorem chars_obj_congr {ms ns : Named (Json τ)}
    (h : List.Forall₂ (fun m n => m.1 = n.1 ∧ m.2.chars = n.2.chars) ms ns) :
    (obj ms).chars = (obj ns).chars := by
  have hmembers (rest : List (Token τ)) : (memberTokens ms rest).flatMap Token.chars =
      (memberTokens ns rest).flatMap Token.chars := by
    induction h with
    | nil => rfl
    | @cons m n ms ns hmn htail ih =>
        obtain ⟨name, v⟩ := m
        obtain ⟨_, w⟩ := n
        obtain ⟨rfl, hvw⟩ := hmn
        cases htail with
        | nil =>
            simp only [memberTokens, List.flatMap_cons, flatMap_tokens]
            rw [hvw]
        | cons _ _ =>
            simp only [memberTokens_cons, List.flatMap_cons, flatMap_tokens, ih]
            rw [hvw]
  simp only [chars, tokens, List.flatMap_cons, hmembers]

end ToolGate.Json
