import ModernControls.Text

/-!
# Tables

Tables from keys to values that remember the order in which their keys were first written. Writing
a key again keeps its place.

Results:
- `get?_insert_self`, `get?_insert_of_ne`: what a table holds after a write;
- `keys_insert_of_mem`, `keys_insert_of_not_mem`: a write keeps the order of the keys and adds a
  new one at the end.
-/

namespace ModernControls

/-- Entries in the order in which their keys were first written. -/
abbrev Table (α : Type) := List (Text × α)

namespace Table

variable {α : Type}

/-- The value of the first entry with a key. -/
def get? (table : Table α) (key : Text) : Option α :=
  match table with
  | [] => none
  | (k, v) :: rest => if k = key then some v else get? rest key

/-- Whether a table has an entry with a key. -/
def hasKey (table : Table α) (key : Text) : Bool := (get? table key).isSome

/-- The keys in order. -/
def keys (table : Table α) : List Text := table.map (·.1)

/-- A table with a value under a key: in the place of the value it replaces, else at the end. -/
def insert (table : Table α) (key : Text) (value : α) : Table α :=
  match table with
  | [] => [(key, value)]
  | (k, v) :: rest => if k = key then (key, value) :: rest else (k, v) :: insert rest key value

/-- A table without the entries of a key. -/
def erase (table : Table α) (key : Text) : Table α := table.filter (·.1 ≠ key)

/-- The entries written one after the other: a key that comes again gets the later value and
keeps its place. -/
def insertAll (table : Table α) (entries : List (Text × α)) : Table α :=
  entries.foldl (fun t entry => insert t entry.1 entry.2) table

/-- The table of a list of entries. -/
def ofEntries (entries : List (Text × α)) : Table α := insertAll [] entries

/-- Whether two tables hold equal values under the same keys, in any order. -/
def sameEntries (same : α → α → Bool) (a b : Table α) : Bool :=
  a.length = b.length
    && a.all fun (k, v) => match get? b k with
      | some w => same v w
      | none => false

@[simp] theorem get?_nil (k : Text) : get? ([] : Table α) k = none := rfl

theorem get?_insert_self (t : Table α) (k : Text) (v : α) : get? (insert t k v) k = some v := by
  induction t with
  | nil => simp [insert, get?]
  | cons e r ih =>
    obtain ⟨k', v'⟩ := e
    by_cases h : k' = k <;> simp [insert, get?, h, ih]

theorem get?_insert_of_ne (t : Table α) {k k' : Text} (v : α) (h : k' ≠ k) :
    get? (insert t k v) k' = get? t k' := by
  induction t with
  | nil => simp [insert, get?, Ne.symm h]
  | cons e r ih =>
    obtain ⟨k₀, v₀⟩ := e
    by_cases h₀ : k₀ = k
    · subst h₀; simp [insert, get?, Ne.symm h]
    · by_cases h₁ : k₀ = k'
      · subst h₁; simp [insert, get?, h₀]
      · simp [insert, get?, h₀, h₁, ih]

theorem get?_isSome_iff (t : Table α) (k : Text) : (get? t k).isSome ↔ k ∈ keys t := by
  induction t with
  | nil => simp [keys]
  | cons e r ih =>
    obtain ⟨k', v'⟩ := e
    by_cases h : k' = k
    · simp [get?, keys, h]
    · simp only [get?, h, if_false, ih]
      simp [keys, Ne.symm h]

theorem keys_insert_of_mem (t : Table α) {k : Text} (v : α) (h : k ∈ keys t) :
    keys (insert t k v) = keys t := by
  induction t with
  | nil => simp [keys] at h
  | cons e r ih =>
    obtain ⟨k', v'⟩ := e
    by_cases h' : k' = k
    · simp [insert, keys, h']
    · have : k ∈ keys r := by
        simp only [keys, List.map_cons, List.mem_cons] at h
        exact h.resolve_left (Ne.symm h')
      simpa [insert, keys, h'] using ih this

theorem keys_insert_of_not_mem (t : Table α) {k : Text} (v : α) (h : k ∉ keys t) :
    keys (insert t k v) = keys t ++ [k] := by
  induction t with
  | nil => simp [insert, keys]
  | cons e r ih =>
    obtain ⟨k', v'⟩ := e
    simp only [keys, List.map_cons, List.mem_cons, not_or] at h
    simpa [insert, keys, Ne.symm h.1] using ih h.2

end Table

end ModernControls
