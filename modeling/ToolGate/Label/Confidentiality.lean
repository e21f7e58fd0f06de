import ToolGate.Text.Units

namespace ToolGate

structure Confidentiality where
  tags : List String
  universal : Bool
  nodup : tags.Nodup
deriving DecidableEq

theorem nodup_eraseDups {α : Type} [DecidableEq α] (xs : List α) : xs.eraseDups.Nodup := by
  match xs with
  | [] => simp
  | x :: xs =>
      rw [List.eraseDups_cons, List.nodup_cons]
      exact ⟨by simp [List.mem_eraseDups], nodup_eraseDups _⟩
termination_by xs.length
decreasing_by
  exact Nat.lt_succ_of_le (List.length_filter_le _ _)

namespace Confidentiality

def ofTags (tags : List String) (universal : Bool) : Confidentiality :=
  ⟨tags.eraseDups, universal, nodup_eraseDups _⟩

def all : Confidentiality := ⟨[], true, .nil⟩

def union (a b : Confidentiality) : Confidentiality :=
  ofTags (a.tags ++ b.tags) false

def join (a b : Confidentiality) : Confidentiality :=
  if a.universal then a
  else if b.universal then b
  else if b.tags.isEmpty then a
  else if a.tags.isEmpty then b
  else a.union b

def carries (a : Confidentiality) (tag : String) : Bool :=
  a.universal || a.tags.contains tag

def present (a : Confidentiality) (forbidden : List String) : List String :=
  forbidden.filter a.carries

def names (a : Confidentiality) : List String :=
  if a.universal then ["*"] else Text.sort a.tags

end Confidentiality

end ToolGate
