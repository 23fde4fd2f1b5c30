import ModernControls.Proofs.Outcomes
import ModernControls.Yaml.Layout.Tree

/-!
# Trees without long integers

A tree without an integer that is too long to be written stays so when other such trees are put into
it or an entry is added. It has a text unless it holds a foreign value.

Results:
- `isShort_substitute`: putting trees in for foreign values;
- `toText_ends`: why such a tree has no text.
-/

namespace ModernControls.Yaml

namespace Tree

variable {α β : Type}

theorem areShort_iff {items : List (Tree α)} :
    areShort items = true ↔ ∀ item ∈ items, item.isShort = true := by
  induction items with
  | nil => simp [areShort]
  | cons item rest ih => simp [areShort, ih]

theorem areShortEntries_iff {entries : List (Tree α × Tree α)} :
    areShortEntries entries = true ↔
      ∀ e ∈ entries, e.1.isShort = true ∧ e.2.isShort = true := by
  induction entries with
  | nil => simp [areShortEntries]
  | cons entry rest ih => simp [areShortEntries, ih, and_assoc]

section Substitution

variable {put : α → Tree β}

mutual

theorem isShort_substitute (hput : ∀ a, (put a).isShort = true) :
    ∀ tree : Tree α, tree.isShort = true → (tree.substitute put).isShort = true
  | .null, _ => rfl
  | .bool _, _ => rfl
  | .int _, h => h
  | .float _, _ => rfl
  | .text .., _ => rfl
  | .bytes _, _ => rfl
  | .moment _, _ => rfl
  | .list items, h => areShort_substituteItems hput items h
  | .tuple items, h => areShort_substituteItems hput items h
  | .set items, h => areShort_substituteItems hput items h
  | .map entries, h => areShortEntries_substituteEntries hput entries h
  | .foreign a, _ => hput a

theorem areShort_substituteItems (hput : ∀ a, (put a).isShort = true) :
    ∀ items : List (Tree α), areShort items = true → areShort (substituteItems put items) = true
  | [], _ => rfl
  | item :: rest, h => by
    rw [areShort, Bool.and_eq_true] at h
    rw [substituteItems, areShort, isShort_substitute hput item h.1,
      areShort_substituteItems hput rest h.2]
    rfl

theorem areShortEntries_substituteEntries (hput : ∀ a, (put a).isShort = true) :
    ∀ entries : List (Tree α × Tree α), areShortEntries entries = true →
      areShortEntries (substituteEntries put entries) = true
  | [], _ => rfl
  | (key, value) :: rest, h => by
    rw [areShortEntries, Bool.and_eq_true, Bool.and_eq_true] at h
    rw [substituteEntries, areShortEntries, isShort_substitute hput key h.1.1,
      isShort_substitute hput value h.1.2, areShortEntries_substituteEntries hput rest h.2]
    rfl

end

end Substitution

/-! ## Writing -/

mutual

/-- What can be written holds no integer that is too long. -/
theorem isShort_of_proper : ∀ (tree : Tree α) {T : Tree Empty}, proper tree = .ok T →
    tree.isShort = true
  | .null, _, _ => rfl
  | .bool _, _, _ => rfl
  | .int n, _, h => by
    rw [proper] at h
    split at h
    · cases h
    · next hn => simpa [isShort] using hn
  | .float _, _, _ => rfl
  | .text .., _, _ => rfl
  | .bytes _, _, _ => rfl
  | .moment _, _, _ => rfl
  | .list items, _, h => by
    obtain ⟨Ts, hTs, -⟩ := exists_of_map h
    exact areShort_of_properItems items hTs
  | .tuple items, _, h => by
    obtain ⟨Ts, hTs, -⟩ := exists_of_map h
    exact areShort_of_properItems items hTs
  | .set items, _, h => by
    obtain ⟨Ts, hTs, -⟩ := exists_of_map h
    exact areShort_of_properItems items hTs
  | .map entries, _, h => by
    obtain ⟨Ts, hTs, -⟩ := exists_of_map h
    exact areShort_of_properEntries entries hTs
  | .foreign _, _, h => by cases h

theorem areShort_of_properItems : ∀ (items : List (Tree α)) {Ts : List (Tree Empty)},
    properItems items = .ok Ts → areShort items = true
  | [], _, _ => rfl
  | item :: rest, _, h => by
    obtain ⟨T, hT, h⟩ := exists_of_bind h
    obtain ⟨Ts, hTs, -⟩ := exists_of_bind h
    rw [areShort, isShort_of_proper item hT, areShort_of_properItems rest hTs]
    rfl

theorem areShort_of_properEntries : ∀ (entries : List (Tree α × Tree α))
    {Ts : List (Tree Empty × Tree Empty)}, properEntries entries = .ok Ts →
      areShortEntries entries = true
  | [], _, _ => rfl
  | (key, value) :: rest, _, h => by
    obtain ⟨K, hK, h⟩ := exists_of_bind h
    obtain ⟨V, hV, h⟩ := exists_of_bind h
    obtain ⟨Ts, hTs, -⟩ := exists_of_bind h
    rw [areShortEntries, isShort_of_proper key hK, isShort_of_proper value hV,
      areShort_of_properEntries rest hTs]
    rfl

end

/-- Whether a foreign value is why a tree has no text. -/
def Unwritable.IsForeign : Unwritable α → Prop
  | .foreign _ => True
  | .longInteger _ => False

mutual

theorem proper_ends : ∀ tree : Tree α, tree.isShort = true →
    Ends Unwritable.IsForeign tree.proper fun _ => True
  | .null, _ => trivial
  | .bool _, _ => trivial
  | .int k, h => by
    rw [isShort, Bool.not_eq_true'] at h
    rw [proper, h]
    exact trivial
  | .float _, _ => trivial
  | .text .., _ => trivial
  | .bytes _, _ => trivial
  | .moment _, _ => trivial
  | .list items, h => Ends.map (properItems_ends items h)
  | .tuple items, h => Ends.map (properItems_ends items h)
  | .set items, h => Ends.map (properItems_ends items h)
  | .map entries, h => Ends.map (properEntries_ends entries h)
  | .foreign _, _ => trivial

theorem properItems_ends : ∀ items : List (Tree α), areShort items = true →
    Ends Unwritable.IsForeign (properItems items) fun _ => True
  | [], _ => trivial
  | item :: rest, h => by
    rw [areShort, Bool.and_eq_true] at h
    exact (proper_ends item h.1).bind fun _ _ => (properItems_ends rest h.2).bind fun _ _ => trivial

theorem properEntries_ends : ∀ entries : List (Tree α × Tree α), areShortEntries entries = true →
    Ends Unwritable.IsForeign (properEntries entries) fun _ => True
  | [], _ => trivial
  | (key, value) :: rest, h => by
    rw [areShortEntries, Bool.and_eq_true, Bool.and_eq_true] at h
    exact (proper_ends key h.1.1).bind fun _ _ => (proper_ends value h.1.2).bind fun _ _ =>
      (properEntries_ends rest h.2).bind fun _ _ => trivial

end

/-- A tree without long integers has a text, or a foreign value. -/
theorem toText_ends {tree : Tree α} (h : tree.isShort = true) :
    Ends Unwritable.IsForeign tree.toText fun _ => True := (proper_ends tree h).map

end Tree

end ModernControls.Yaml
