import ToolGate.Sorting

namespace ToolGate

abbrev Named (α : Type) := List (String × α)

namespace Named

variable {α β : Type}

def get? (name : String) : Named α → Option α
  | [] => none
  | (k, a) :: rest => if k = name then some a else get? name rest

def has (name : String) (xs : Named α) : Bool :=
  (get? name xs).isSome

def put (name : String) (a : α) : Named α → Named α
  | [] => [(name, a)]
  | (k, b) :: rest => if k = name then (k, a) :: rest else (k, b) :: put name a rest

def erase (name : String) : Named α → Named α
  | [] => []
  | (k, a) :: rest => if k = name then rest else (k, a) :: erase name rest

def names (xs : Named α) : List String :=
  xs.map Prod.fst

def ofList (xs : List (String × α)) : Named α :=
  xs.foldl (fun done x => put x.1 x.2 done) []

theorem mem_of_get? {name : String} {a : α} {xs : Named α} (h : get? name xs = some a) :
    (name, a) ∈ xs := by
  induction xs with
  | nil => cases h
  | cons x xs ih => grind [get?]

theorem get?_put (xs : Named α) (a : α) (name k : String) :
    get? k (put name a xs) = if name = k then some a else get? k xs := by
  induction xs with
  | nil => simp [put, get?]
  | cons x xs ih => grind [put, get?]

theorem names_put (xs : Named α) (a : α) (name : String) :
    (put name a xs).names = if name ∈ xs.names then xs.names else xs.names ++ [name] := by
  induction xs with
  | nil => simp [put, names]
  | cons x xs ih => grind [put, names]

theorem nodup_put {xs : Named α} (h : xs.names.Nodup) (a : α) (name : String) :
    (put name a xs).names.Nodup := by
  rw [names_put]
  split
  · exact h
  · grind

end Named

/-- Names that read as an index, "0" to "4294967294" without leading zeros. -/
def index? (name : String) : Option Nat :=
  match name.toNat? with
  | some n => if n < 4294967295 ∧ toString n = name then some n else none
  | none => none

def indexFirst {α : Type} (xs : Named α) : Named α :=
  let indexed := xs.filterMap fun x => (index? x.1).map fun n => (n, x)
  (sortBy (fun a b => a.1 ≤ b.1) indexed).map Prod.snd ++
    xs.filter fun x => (index? x.1).isNone

theorem mem_indexFirst {α : Type} {x : String × α} {xs : Named α} :
    x ∈ indexFirst xs ↔ x ∈ xs := by
  simp only [indexFirst, List.mem_append, List.mem_map, mem_sortBy, List.mem_filterMap,
    Option.map_eq_some_iff, List.mem_filter, Option.isNone_iff_eq_none]
  constructor
  · rintro (⟨_, ⟨_, hx, _, -, rfl⟩, rfl⟩ | ⟨hx, -⟩) <;> exact hx
  · intro hx
    cases hindex : index? x.1 with
    | none => exact .inr ⟨hx, rfl⟩
    | some n => exact .inl ⟨(n, x), ⟨x, hx, n, hindex, rfl⟩, rfl⟩

end ToolGate
