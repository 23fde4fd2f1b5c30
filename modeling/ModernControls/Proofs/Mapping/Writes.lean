import ModernControls.Control.Document
import ModernControls.Mapping.Properties
import ModernControls.Proofs.Mapping.Overriding

/-!
# Laws of writes along paths

A write along a path and a look-up along one are the two halves of a lens. A write is blocked just
if a look-up above its path finds a value that is no object, and leaves the properties as they are
then. Any other write succeeds: a look-up finds what was written, a look-up apart from the path
finds what it found before, and on every level along the path the keys stay in their places.

**Levels (`Properties.entriesAt`).** The entries of the object at a path, none where there is no
object. A write along a path is on each level above its end a write under one key.

Results:
- `exists_insert_of_assign`: what a write does on a level;
- `isBlocked_iff`: when a write fails;
- `isWritten_of_assign`: what is so after one that succeeds;
- `written_unless_blocked`: these laws together.
-/
namespace ModernControls

/-- A write keeps the places of the keys and adds a new one at the end. -/
theorem Table.keys_insert {α : Type} (t : Table α) (key : Text) (v : α) :
    keys (insert t key v) = Control.withKey (keys t) key := by
  rw [Control.withKey]
  by_cases hk : key ∈ keys t
  · rw [keys_insert_of_mem t v hk, if_pos (List.contains_iff_mem.2 hk)]
  · rw [keys_insert_of_not_mem t v hk, if_neg fun hm => hk (List.contains_iff_mem.1 hm)]

namespace Properties

open Property

variable {ps out : Properties} {value : Property} {path : Path}

/-- The entries of the object at a path, none where there is no object. -/
def entriesAt (ps : Properties) (path : Path) : Properties :=
  match (object ps).at? path with
  | some (.object entries) => entries
  | _ => []

/-- Whether a value that is no object stands above a path. -/
def IsBlocked (ps : Properties) (path : Path) : Prop :=
  ∃ above, above <+: path ∧ above ≠ path ∧ (lookup ps above).isScalar = true

/-- What is so after a value was written at a path. -/
structure IsWritten (ps : Properties) (value : Property) (path : Path) (out : Properties) : Prop where
  found : lookup out path = value
  apart : ∀ other, Path.Apart path other → lookup out other = lookup ps other
  keys : ∀ above key, above ++ [key] <+: path →
    Table.keys (entriesAt out above) = Control.withKey (Table.keys (entriesAt ps above)) key

/-! ## Levels -/

theorem entriesAt_insert (ps : Properties) (key : Text) (entries : Properties) (path : Path) :
    entriesAt (Table.insert ps key (.object entries)) (key :: path) = entriesAt entries path := by
  rw [entriesAt, at?_insert_self, entriesAt]

/-- Below an opened key are the entries that it was opened to. -/
theorem Opens.entriesAt {key : Text} {entries : Properties} (h : Opens ps key entries)
    (path : Path) : Properties.entriesAt ps (key :: path) = Properties.entriesAt entries path := by
  by_cases hp : path = []
  · subst hp
    rw [Properties.entriesAt, at?_key]
    rcases h.get? with ⟨hempty, rfl⟩ | hg
    · cases hg : Table.get? ps key with
      | none => rfl
      | some inner =>
        obtain rfl := hempty inner hg
        rfl
    · rw [hg]
      rfl
  · rw [Properties.entriesAt, h.at? hp, Properties.entriesAt]

/-- On every level along its path a write is one under the next key. The induction is on the write;
on the levels below its first key, that is on the write inside. -/
theorem exists_insert_of_assign (h : assign ps value path = some out) {above : Path} {key : Text}
    (hp : above ++ [key] <+: path) :
    ∃ v, entriesAt out above = Table.insert (entriesAt ps above) key v := by
  refine assign_induction (P := fun ps path out => ∀ above, above ++ [key] <+: path →
    ∃ v, entriesAt out above = Table.insert (entriesAt ps above) key v) ?_ ?_ h above hp
  · intro ps k above hp
    cases above with
    | nil =>
      obtain ⟨rfl, -⟩ := List.cons_prefix_cons.1 hp
      exact ⟨value, rfl⟩
    | cons k' above =>
      have hnil := (List.cons_prefix_cons.1 hp).2
      simp at hnil
  · intro ps k rest entries inner _ ho ih above hp
    cases above with
    | nil =>
      obtain ⟨rfl, -⟩ := List.cons_prefix_cons.1 hp
      exact ⟨.object inner, rfl⟩
    | cons k' above =>
      obtain ⟨rfl, hrest⟩ := List.cons_prefix_cons.1 hp
      rw [entriesAt_insert, ho.entriesAt]
      exact ih above hrest

/-! ## Writes that fail and writes that succeed -/

theorem isBlocked_iff (hp : path ≠ []) : assign ps value path = none ↔ IsBlocked ps path := by
  rw [assign_eq_none_iff]
  constructor
  · rintro (hnil | ⟨above, below, u, rfl, ha, hb, hat, hu⟩)
    · exact absurd hnil hp
    · refine ⟨above, List.prefix_append _ _, by simpa using Ne.symm hb, ?_⟩
      rw [lookup_eq ps ha, hat]
      exact hu
  · rintro ⟨above, ⟨below, rfl⟩, hne, hu⟩
    have ha : above ≠ [] := by
      rintro rfl
      cases hu
    have hb : below ≠ [] := by
      rintro rfl
      exact hne (List.append_nil above).symm
    rw [lookup_eq ps ha] at hu
    cases hat : (object ps).at? above with
    | none => rw [hat] at hu; cases hu
    | some u =>
      rw [hat] at hu
      exact .inr ⟨above, below, u, rfl, ha, hb, hat, hu⟩

theorem isWritten_of_assign (h : assign ps value path = some out) : IsWritten ps value path out where
  found := lookup_assign h
  apart other ha := by
    rw [lookup_eq out ha.ne_nil.2, lookup_eq ps ha.ne_nil.2, at?_assign_of_apart h ha]
  keys above key hp := by
    obtain ⟨v, hv⟩ := exists_insert_of_assign h hp
    rw [hv, Table.keys_insert]

end Properties

namespace Mapping

open Properties

/-- A text without empty keys between its points leads along these keys. A write along a path is
blocked, and then it fails and leaves the properties as they are; or it is not, and then it
succeeds, and the value is in its place and all else where it was. -/
theorem written_unless_blocked (done : Properties) (key target : Text) (value : Property) :
    ((∀ k ∈ target.split '.', k ≠ []) → Path.ofText target = target.split '.')
    ∧ (IsBlocked done (Path.ofText target) ∧ assign done value (Path.ofText target) = none
        ∧ (placeAtPath done key target value).1 = done
      ∨ ¬ IsBlocked done (Path.ofText target)
        ∧ ∃ out, assign done value (Path.ofText target) = some out
          ∧ (placeAtPath done key target value).1 = out
          ∧ IsWritten done value (Path.ofText target) out) := by
  have hblocked : assign done value (Path.ofText target) = none
      ↔ IsBlocked done (Path.ofText target) := isBlocked_iff (Path.ofText_ne_nil target)
  refine ⟨ofText_eq_split, ?_⟩
  cases ha : assign done value (Path.ofText target) with
  | none =>
    refine .inl ⟨hblocked.1 ha, rfl, ?_⟩
    rw [placeAtPath, ha]
  | some out =>
    refine .inr ⟨fun hb => ?_, out, rfl, ?_, isWritten_of_assign ha⟩
    · rw [hblocked.2 hb] at ha
      cases ha
    · rw [placeAtPath, ha]

/-- Properties with an object in which a key has no value. -/
def styledButton : Properties :=
  [("Style".toList, .object [("Fill".toList, .empty), ("Font".toList, .int 1)]),
    ("X".toList, .int 40)]

/-- A path through the key without a value. -/
def fillPath : Text := "Style.Fill.Color".toList

theorem written_unless_blocked_styledButton :
    (∀ k ∈ fillPath.split '.', k ≠ []) ∧ Path.ofText fillPath = fillPath.split '.'
    ∧ ∃ out, assign styledButton (.formula "Red".toList) (Path.ofText fillPath) = some out
      ∧ (placeAtPath styledButton "Fill".toList fillPath (.formula "Red".toList)).1 = out
      ∧ IsWritten styledButton (.formula "Red".toList) (Path.ofText fillPath) out := by
  have hkeys : ∀ k ∈ fillPath.split '.', k ≠ [] := by decide
  obtain ⟨hpath, hlaws⟩ :=
    written_unless_blocked styledButton "Fill".toList fillPath (.formula "Red".toList)
  refine ⟨hkeys, hpath hkeys, ?_⟩
  rcases hlaws with ⟨-, hnone, -⟩ | ⟨-, hwritten⟩
  · have hsome : (assign styledButton (.formula "Red".toList) (Path.ofText fillPath)).isSome
        = true := by decide
    rw [hnone] at hsome
    cases hsome
  · exact hwritten

end Mapping

end ModernControls
