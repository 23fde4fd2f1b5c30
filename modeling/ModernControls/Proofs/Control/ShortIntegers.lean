import ModernControls.Control.Property

/-!
# Integers in property values

An integer of too many digits is not written, neither in a document nor in a log. So whether there
is a text for a value depends on the integers in it, however deeply they are nested, and on nothing
else.

Results:
- `hasShortIntegers_mapKeys`: the keys of objects do not matter;
- `exists_asText_iff`: which values have a name in logs.
-/
namespace ModernControls.Property

variable {κ ι : Type}

mutual

/-- Whether all integers in a value may be written. -/
def HasShortIntegers : Property κ → Prop
  | .int n => isLongInteger n = false
  | .object entries => HasShortIntegersEntries entries
  | _ => True

/-- Whether this is so in all entries. -/
def HasShortIntegersEntries : List (κ × Property κ) → Prop
  | [] => True
  | (_, value) :: rest => HasShortIntegers value ∧ HasShortIntegersEntries rest

end

theorem hasShortIntegersEntries_iff {entries : List (κ × Property κ)} :
    HasShortIntegersEntries entries ↔ ∀ e ∈ entries, e.2.HasShortIntegers := by
  induction entries with
  | nil => simp [HasShortIntegersEntries]
  | cons entry rest ih => simp [HasShortIntegersEntries, ih]

mutual

theorem hasShortIntegers_mapKeys (f : κ → ι) : ∀ v : Property κ,
    (v.mapKeys f).HasShortIntegers ↔ v.HasShortIntegers
  | .empty | .formula _ | .bool _ | .int _ | .float _ | .string .. => Iff.rfl
  | .object entries => hasShortIntegersEntries_mapKeys f entries

theorem hasShortIntegersEntries_mapKeys (f : κ → ι) : ∀ entries : List (κ × Property κ),
    HasShortIntegersEntries (mapEntryKeys f entries) ↔ HasShortIntegersEntries entries
  | [] => Iff.rfl
  | (_, value) :: rest =>
    and_congr (hasShortIntegers_mapKeys f value) (hasShortIntegersEntries_mapKeys f rest)

end

mutual

theorem exists_asText_iff : ∀ v : Property, (∃ text, v.asText = some text) ↔ v.HasShortIntegers
  | .empty => ⟨fun _ => trivial, fun _ => ⟨_, rfl⟩⟩
  | .formula _ => ⟨fun _ => trivial, fun _ => ⟨_, rfl⟩⟩
  | .bool _ => ⟨fun _ => trivial, fun _ => ⟨_, rfl⟩⟩
  | .float _ => ⟨fun _ => trivial, fun _ => ⟨_, rfl⟩⟩
  | .string .. => ⟨fun _ => trivial, fun _ => ⟨_, rfl⟩⟩
  | .int n => by
    rw [asText, HasShortIntegers]
    cases isLongInteger n <;> simp
  | .object entries => by
    rw [asText, HasShortIntegers, ← exists_entryTexts_iff entries]
    cases entryTexts entries <;> simp

theorem exists_entryTexts_iff : ∀ entries : List (Text × Property),
    (∃ texts, entryTexts entries = some texts) ↔ HasShortIntegersEntries entries
  | [] => ⟨fun _ => trivial, fun _ => ⟨_, rfl⟩⟩
  | (key, value) :: rest => by
    have hkey : (PropertyKey.plain key).keyText? = some key := rfl
    rw [entryTexts, HasShortIntegersEntries, ← exists_asText_iff value,
      ← exists_entryTexts_iff rest, hkey]
    cases value.asText <;> cases entryTexts rest <;> simp

end

end ModernControls.Property
