import ModernControls.Control.Property

/-!
# Paths into properties

A path is a list of keys that leads through objects. A write along a path makes the objects that
are missing and fails, without any change, where a value that is no object stands in the way.

Results:
- `lookup_assign`: after a write the path holds the written value.
-/

namespace ModernControls

/-- Keys that lead through objects. -/
abbrev Path := List Text

namespace Path

/-- The path that a text with points between its keys means; a point at the end adds no key. -/
def ofText (text : Text) : Path :=
  let parts := text.split '.'
  if 1 < parts.length ∧ parts.getLast? = some [] then parts.dropLast else parts

end Path

namespace Properties

/-- The value under a key; a key without a value counts as missing. -/
def valueAt (properties : Properties) (key : Text) : Property :=
  (Table.get? properties key).getD .empty

/-- The value at a path; empty where there is none.
mirrors `_lookup_path` (mapping.lib 379-389) -/
def lookup (properties : Properties) : Path → Property
  | [] => .empty
  | [key] => valueAt properties key
  | key :: rest => match valueAt properties key with
    | .object entries => lookup entries rest
    | _ => .empty

/-- The properties with a value at a path, if nothing stands in the way.
mirrors `_assign_path` (mapping.lib 400-420) -/
def assign (properties : Properties) (value : Property) : Path → Option Properties
  | [] => none
  | [key] => some (Table.insert properties key value)
  | key :: rest => match valueAt properties key with
    | .empty => (assign [] value rest).map fun inner => Table.insert properties key (.object inner)
    | .object entries =>
      (assign entries value rest).map fun inner => Table.insert properties key (.object inner)
    | _ => none

theorem valueAt_insert_self (ps : Properties) (key : Text) (v : Property) :
    valueAt (Table.insert ps key v) key = v := by
  simp [valueAt, Table.get?_insert_self]

theorem lookup_assign {ps out : Properties} {v : Property} {path : Path}
    (h : assign ps v path = some out) : lookup out path = v := by
  induction path generalizing ps out with
  | nil => cases h
  | cons key rest ih =>
    cases rest with
    | nil => cases h; simp [lookup, valueAt_insert_self]
    | cons key' rest =>
      rw [assign] at h
      · split at h
        · obtain ⟨inner, hi, rfl⟩ := Option.map_eq_some_iff.1 h
          simp [lookup, valueAt_insert_self, ih hi]
        · obtain ⟨inner, hi, rfl⟩ := Option.map_eq_some_iff.1 h
          simp [lookup, valueAt_insert_self, ih hi]
        · cases h
      · simp

end Properties

end ModernControls
