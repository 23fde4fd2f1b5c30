import ModernControls.Control.Reading
import ModernControls.Proofs.Decimal.Canonical
import ModernControls.Proofs.Tables

/-!
# Well-formed documents

What holds of documents that are read: texts have no form of their own, numbers are numbers of the
format, no key is repeated, and a control has its parts in the order of its keys.

Results:
- `wellFormed_classifyText`: what a text means is well-formed;
- `wellFormedEntries_ofEntries`: so are the entries of a table made of well-formed ones;
- `wellFormed_of_keys`: so is a control with a type and properties alone.
-/
namespace ModernControls

open Yaml

namespace Property

mutual

/-- Whether the texts in a value have no form of their own, its numbers are numbers of the format,
and no object repeats a key. -/
def WellFormed : Property → Prop
  | .string _ form => form = .plain
  | .float x => x.Canonical
  | .object entries => (entries.map (·.1)).Nodup ∧ WellFormedEntries entries
  | _ => True

/-- Whether this is so in all entries. -/
def WellFormedEntries : List (Text × Property) → Prop
  | [] => True
  | (_, value) :: rest => WellFormed value ∧ WellFormedEntries rest

end

theorem wellFormedEntries_iff {entries : List (Text × Property)} :
    WellFormedEntries entries ↔ ∀ e ∈ entries, WellFormed e.2 := by
  induction entries with
  | nil => simp [WellFormedEntries]
  | cons e rest ih =>
    obtain ⟨k, v⟩ := e
    simp [WellFormedEntries, ih]

theorem wellFormedEntries_ofEntries {entries : List (Text × Property)}
    (h : WellFormedEntries entries) : WellFormedEntries (Table.ofEntries entries) := by
  rw [wellFormedEntries_iff] at h ⊢
  exact fun e he => h e (Table.of_mem_ofEntries he)

theorem wellFormed_classifyText (t : Text) (form : TextForm) :
    (classifyText t form).WellFormed := by
  rw [classifyText]
  split
  · trivial
  · exact rfl

end Property

namespace Control

mutual

/-- Whether a further part is as reading gives it: its texts have no form of their own, its numbers
are numbers of the format, its maps have texts as keys and repeat none, and nothing in it is foreign
but formulas. -/
def Normal : PlainValue → Prop
  | .text _ form => form = .plain
  | .float x => x.Canonical
  | .list items => NormalItems items
  | .map entries => (entries.map (·.1.keyText)).Nodup ∧ NormalEntries entries
  | .foreign value => ∃ e, value = .property (.formula e)
  | _ => True

/-- Whether this is so in all items. -/
def NormalItems : List PlainValue → Prop
  | [] => True
  | item :: rest => Normal item ∧ NormalItems rest

/-- Whether the keys of entries are texts without a form, and this is so in all values. -/
def NormalEntries : List (PlainValue × PlainValue) → Prop
  | [] => True
  | (key, value) :: rest => (∃ k, key = .text k .plain) ∧ Normal value ∧ NormalEntries rest

end

/-- Whether a key is neither that of the type nor that of the properties. -/
def isFurtherKey (k : Text) : Bool := k ≠ typeKey && k ≠ propertiesKey

/-- Whether a control is as reading gives it, and repeats no key. -/
structure WellFormed (c : Control) : Prop where
  keys : c.keyOrder.Nodup
  typed : typeKey ∈ c.keyOrder
  extras : c.extras.keys = c.keyOrder.filter isFurtherKey
  properties : propertiesKey ∉ c.keyOrder → c.properties = []
  unwrapped : TypeToken.unwrapped c.typeTag = c.typeTag
  nonblank : c.typeTag.isAllBlank = false
  distinct : (c.properties.map (·.1)).Nodup
  values : Property.WellFormedEntries c.properties
  normal : ∀ e ∈ c.extras, Normal e.2

/-- A control with a type and properties alone is as reading gives it if these are. -/
theorem wellFormed_of_keys {c : Control} (hkeys : c.keyOrder = [typeKey, propertiesKey])
    (hextras : c.extras = []) (hunwrapped : TypeToken.unwrapped c.typeTag = c.typeTag)
    (hnonblank : c.typeTag.isAllBlank = false) (hdistinct : (c.properties.map (·.1)).Nodup)
    (hvalues : Property.WellFormedEntries c.properties) : c.WellFormed where
  keys := by rw [hkeys]; decide +kernel
  typed := by rw [hkeys]; exact List.mem_cons_self
  extras := by rw [hkeys, hextras]; decide +kernel
  properties hn := absurd (by rw [hkeys]; decide +kernel) hn
  unwrapped := hunwrapped
  nonblank := hnonblank
  distinct := hdistinct
  values := hvalues
  normal e he := by
    rw [hextras] at he
    cases he

end Control

/-- Whether a document holds controls, each under a name of its own. -/
structure Document.WellFormed (d : Document) : Prop where
  nonempty : d.controls ≠ []
  distinct : d.controls.keys.Nodup
  controls : ∀ e ∈ d.controls, e.2.WellFormed

theorem Document.wellFormed_single {c : Control} (h : c.WellFormed) (name : Text)
    (asSequence : Bool) : (Document.single name c asSequence).WellFormed := by
  refine ⟨List.cons_ne_nil _ _, by simp [Document.single, Table.keys], fun e he => ?_⟩
  obtain rfl := List.mem_singleton.1 he
  exact h

end ModernControls
