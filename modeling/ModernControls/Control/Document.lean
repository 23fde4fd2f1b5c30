import ModernControls.Control.Marks
import ModernControls.Control.Property
import ModernControls.Control.TypeToken

/-!
# Control documents

A document declares controls by name. A control has a type, properties in order, and further
parts that are kept as they are.

Results:
- `mem_nodeKeys`: a control is written with its type, its further parts, and its properties if it
  has any or had a place for them.
-/

namespace ModernControls

/-- A control: its type as written, its properties, its further parts, and the order in which all
these were written.
mirrors `ControlNode` (model.lib 137-171) -/
structure Control where
  typeTag : Text
  properties : Properties
  extras : Table PlainValue
  keyOrder : List Text
  deriving DecidableEq, Inhabited

/-- The controls of a document by name, and whether they were written as items of a sequence.
mirrors `ControlDocument` (model.lib 174-208) -/
structure Document where
  controls : Table Control
  asSequence : Bool
  deriving DecidableEq, Inhabited

namespace Control

/-- The keys that a control is written with, in no particular order. -/
def presentKeys (c : Control) : List Text :=
  typeKey :: c.extras.keys
    ++ if !c.properties.isEmpty || c.keyOrder.contains propertiesKey then [propertiesKey] else []

/-- Keys with one more at the end, unless it is among them. -/
def withKey (keys : List Text) (key : Text) : List Text :=
  if keys.contains key then keys else keys ++ [key]

/-- The keys that a control is written with, in the order in which they are written: those with a
recorded place first.
mirrors `ControlNode.node_keys` (model.lib 163-171) -/
def nodeKeys (c : Control) : List Text :=
  c.presentKeys.foldl withKey (c.keyOrder.filter c.presentKeys.contains)

theorem mem_foldl_withKey (keys start : List Text) (k : Text) :
    k ∈ keys.foldl withKey start ↔ k ∈ start ∨ k ∈ keys := by
  induction keys generalizing start with
  | nil => simp
  | cons key rest ih =>
    rw [List.foldl_cons, ih, List.mem_cons]
    unfold withKey
    by_cases h : key ∈ start
    · simp only [List.contains_iff_mem, h, if_true]
      constructor
      · rintro (h' | h')
        · exact .inl h'
        · exact .inr (.inr h')
      · rintro (h' | rfl | h')
        · exact .inl h'
        · exact .inl h
        · exact .inr h'
    · simp only [List.contains_iff_mem, h, if_false, List.mem_append, List.mem_singleton]
      constructor
      · rintro ((h' | h') | h')
        · exact .inl h'
        · exact .inr (.inl h')
        · exact .inr (.inr h')
      · rintro (h' | h' | h')
        · exact .inl (.inl h')
        · exact .inl (.inr h')
        · exact .inr h'

theorem mem_nodeKeys (c : Control) (k : Text) : k ∈ c.nodeKeys ↔ k ∈ c.presentKeys := by
  rw [nodeKeys, mem_foldl_withKey]
  constructor
  · rintro (h | h)
    · simpa using (List.mem_filter.1 h).2
    · exact h
  · exact .inr

end Control

namespace Document

/-- A document with one control.
mirrors `ControlDocument.single` (model.lib 203-208) -/
def single (name : Text) (control : Control) (asSequence : Bool) : Document :=
  ⟨[(name, control)], asSequence⟩

end Document

end ModernControls
