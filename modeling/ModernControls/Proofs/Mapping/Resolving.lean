import ModernControls.Proofs.Conversion.Lookups
import ModernControls.Proofs.Mapping.Layers

/-!
# Which type is found

A classic type is looked for in four ways, one after the other: as it is written, by its name, and
both again without regard to case. The first way that finds an entry decides, and of the entries
that it finds the first in the table. The note that is made of it says which way it was.

**What is found (`Mapping.IsFound`).** A way, and the first entry that it finds, when no way before
it finds one. Said of the table alone, without the steps that look for it.

A configuration laid over another only adds keys, so what was found is still found, in the same way
or in one before it; and an entry for the type as written is found before all others.

Results:
- `resolve_eq_some_iff`, `resolve_eq_none_iff`: what is found of a type, and when nothing is;
- `exists_isFound_merged`: what is found is still found under another layer;
- `resolve_in_order`: the laws for types.
-/
namespace ModernControls

namespace TypeMatch

/-- The ways of finding a type, in the order in which they are tried. -/
def ways : List TypeMatch := [.exact, .base, .caseless, .baseCaseless]

/-- Whether a type is found in a way by an entry with a key. -/
def Finds (how : TypeMatch) (token key : Text) : Prop :=
  match how with
  | .exact => key = token
  | .base => key = TypeToken.name token
  | .caseless => key.fold = token.fold
  | .baseCaseless => key.fold = (TypeToken.name token).fold

instance (how : TypeMatch) (token key : Text) : Decidable (how.Finds token key) := by
  cases how <;> exact inferInstanceAs (Decidable (_ = _))

end TypeMatch

namespace Mapping

open TypeMatch

/-- The target of the first entry by which a type is found in a way. -/
def foundBy? (types : Table Text) (token : Text) (how : TypeMatch) : Option Text :=
  (types.find? fun entry => how.Finds token entry.1).map (·.2)

/-- Whether a type is found in a way and in no way before it, and what the target is of the first
entry by which it is found. -/
structure IsFound (types : Table Text) (token : Text) (how : TypeMatch) (target : Text) : Prop where
  first : ∃ key before after, types = before ++ (key, target) :: after ∧ how.Finds token key
    ∧ ∀ entry ∈ before, ¬ how.Finds token entry.1
  earliest : ∃ before after, ways = before ++ how :: after
    ∧ ∀ other ∈ before, ∀ entry ∈ types, ¬ other.Finds token entry.1

variable {m upper : Mapping} {types : Table Text} {token target : Text} {how : TypeMatch}

/-! ## Single ways -/

theorem get?_eq_find? (types : Table Text) (key : Text) :
    Table.get? types key = (types.find? fun entry => entry.1 = key).map (·.2) := by
  induction types with
  | nil => rfl
  | cons entry rest ih =>
    by_cases hk : entry.1 = key
    · rw [Table.get?, if_pos hk, List.find?_cons_of_pos (by simpa using hk)]
      rfl
    · rw [Table.get?, if_neg hk, List.find?_cons_of_neg (by simpa using hk), ih]

theorem foundBy?_eq_none_iff :
    foundBy? types token how = none ↔ ∀ entry ∈ types, ¬ how.Finds token entry.1 := by
  simp [foundBy?]

theorem foundBy?_eq_some_iff : foundBy? types token how = some target
    ↔ ∃ key before after, types = before ++ (key, target) :: after ∧ how.Finds token key
      ∧ ∀ entry ∈ before, ¬ how.Finds token entry.1 := by
  rw [foundBy?, Option.map_eq_some_iff]
  constructor
  · rintro ⟨⟨key, target⟩, hfind, rfl⟩
    obtain ⟨hkey, before, after, rfl, hbefore⟩ := List.find?_eq_some_iff_append.1 hfind
    exact ⟨key, before, after, rfl, by simpa using hkey, by simpa using hbefore⟩
  · rintro ⟨key, before, after, rfl, hkey, hbefore⟩
    refine ⟨(key, target), List.find?_eq_some_iff_append.2 ?_, rfl⟩
    exact ⟨by simpa using hkey, before, after, rfl, by simpa using hbefore⟩

/-! ## All ways -/

/-- The ways are tried one after the other. -/
theorem resolve_eq_findSome? (m : Mapping) (token : Text) :
    m.resolve token = ways.findSome? fun how =>
      (foundBy? m.controlTypes (TypeToken.unwrapped token) how).map fun target =>
        (target, Note.typeFound how (TypeToken.unwrapped token) target) := by
  have hexact : foundBy? m.controlTypes (TypeToken.unwrapped token) .exact
      = Table.get? m.controlTypes (TypeToken.unwrapped token) := (get?_eq_find? _ _).symm
  have hbase : foundBy? m.controlTypes (TypeToken.unwrapped token) .base
      = Table.get? m.controlTypes (TypeToken.name (TypeToken.unwrapped token)) :=
    (get?_eq_find? _ _).symm
  have hcaseless : foundBy? m.controlTypes (TypeToken.unwrapped token) .caseless
      = getFolded? m.controlTypes (TypeToken.unwrapped token) := rfl
  have hboth : foundBy? m.controlTypes (TypeToken.unwrapped token) .baseCaseless
      = getFolded? m.controlTypes (TypeToken.name (TypeToken.unwrapped token)) := rfl
  simp only [ways, List.findSome?_cons, List.findSome?_nil, hexact, hbase, hcaseless, hboth, resolve]
  cases Table.get? m.controlTypes (TypeToken.unwrapped token) with
  | some target => rfl
  | none =>
    cases Table.get? m.controlTypes (TypeToken.name (TypeToken.unwrapped token)) with
    | some target => rfl
    | none =>
      cases getFolded? m.controlTypes (TypeToken.unwrapped token) with
      | some target => rfl
      | none =>
        cases getFolded? m.controlTypes (TypeToken.name (TypeToken.unwrapped token)) <;> rfl

theorem resolve_eq_some_iff {note : Note} : m.resolve token = some (target, note)
    ↔ ∃ how, IsFound m.controlTypes (TypeToken.unwrapped token) how target
      ∧ note = .typeFound how (TypeToken.unwrapped token) target := by
  rw [resolve_eq_findSome?, List.findSome?_eq_some_iff]
  constructor
  · rintro ⟨before, how, after, hways, hfound, hbefore⟩
    obtain ⟨found, hby, heq⟩ := Option.map_eq_some_iff.1 hfound
    obtain ⟨rfl, rfl⟩ := Prod.mk.inj heq
    refine ⟨how, ⟨foundBy?_eq_some_iff.1 hby, before, after, hways, fun other ho => ?_⟩, rfl⟩
    exact foundBy?_eq_none_iff.1 (Option.map_eq_none_iff.1 (hbefore other ho))
  · rintro ⟨how, ⟨hfirst, before, after, hways, hbefore⟩, rfl⟩
    refine ⟨before, how, after, hways, ?_, fun other ho => ?_⟩
    · rw [foundBy?_eq_some_iff.2 hfirst]
      rfl
    · rw [foundBy?_eq_none_iff.2 (hbefore other ho)]
      rfl

/-- Nothing is found just if no entry has the key in any way. -/
theorem resolve_eq_none_iff : m.resolve token = none
    ↔ ∀ how : TypeMatch, ∀ entry ∈ m.controlTypes,
      ¬ how.Finds (TypeToken.unwrapped token) entry.1 := by
  have hall : ∀ how, how ∈ ways := by
    intro how
    cases how <;> decide
  rw [resolve_eq_findSome?, List.findSome?_eq_none_iff]
  constructor
  · exact fun h how => foundBy?_eq_none_iff.1 (Option.map_eq_none_iff.1 (h how (hall how)))
  · intro h how _
    rw [foundBy?_eq_none_iff.2 (h how)]
    rfl

/-! ## Layers -/

/-- Every key of the lower layer is a key of both together. -/
theorem exists_entry_merged (m upper : Mapping) {entry : Text × Text} (h : entry ∈ m.controlTypes) :
    ∃ found ∈ (m.merged upper).controlTypes, found.1 = entry.1 := by
  have hkey : entry.1 ∈ Table.keys (m.merged upper).controlTypes :=
    Table.mem_keys_insertAll.2 (.inl (List.mem_map_of_mem h))
  exact List.mem_map.1 hkey

/-- The first way that finds an entry is among those up to any that finds one. -/
theorem exists_isFound {entry : Text × Text} (hm : entry ∈ types) (hf : how.Finds token entry.1) :
    ∃ first target, IsFound types token first target
      ∧ ∃ before after, ways = before ++ how :: after ∧ first ∈ before ++ [how] := by
  obtain ⟨before, after, hways⟩ : ∃ before after, ways = before ++ how :: after :=
    List.append_of_mem (by cases how <;> decide)
  have hfound : ((before ++ [how]).findSome? fun way =>
      (foundBy? types token way).map fun target => (way, target)).isSome := by
    rw [List.findSome?_isSome_iff]
    refine ⟨how, by simp, ?_⟩
    rw [Option.isSome_map, Option.isSome_iff_ne_none, ne_eq, foundBy?_eq_none_iff]
    exact fun h => h entry hm hf
  obtain ⟨⟨first, target⟩, hsome⟩ := Option.isSome_iff_exists.1 hfound
  obtain ⟨earlier, way, later, hsplit, hway, hearlier⟩ := List.findSome?_eq_some_iff.1 hsome
  obtain ⟨target', htarget, heq⟩ := Option.map_eq_some_iff.1 hway
  obtain ⟨rfl, rfl⟩ := Prod.mk.inj heq
  refine ⟨way, target', ⟨foundBy?_eq_some_iff.1 htarget, earlier, later ++ after, ?_, ?_⟩,
    before, after, hways, ?_⟩
  · rw [hways, ← List.singleton_append, ← List.append_assoc, hsplit]
    simp
  · exact fun other ho => foundBy?_eq_none_iff.1 (Option.map_eq_none_iff.1 (hearlier other ho))
  · rw [hsplit]
    simp

/-- What is found is still found under another layer, in the same way or in one before it. -/
theorem exists_isFound_merged (upper : Mapping) (h : IsFound m.controlTypes token how target) :
    ∃ first target', IsFound (m.merged upper).controlTypes token first target'
      ∧ ∃ before after, ways = before ++ how :: after ∧ first ∈ before ++ [how] := by
  obtain ⟨key, before, after, htypes, hkey, -⟩ := h.first
  have hentry : (key, target) ∈ m.controlTypes := by rw [htypes]; simp
  obtain ⟨found, hfound, hsame⟩ := exists_entry_merged m upper hentry
  exact exists_isFound hfound (show how.Finds token found.1 by rwa [hsame])

/-- A type is found in the first way that finds an entry, by the first such entry, with one note
that tells the way; and not at all just if no way finds one. Under another layer it is still found,
and an entry for the type as written decides. -/
theorem resolve_in_order (m : Mapping) (hover : upper.IsValid) (token : Text) :
    (∀ target note, m.resolve token = some (target, note)
      ↔ ∃ how, IsFound m.controlTypes (TypeToken.unwrapped token) how target
        ∧ note = .typeFound how (TypeToken.unwrapped token) target)
      ∧ (m.resolve token = none
        ↔ ∀ how : TypeMatch, ∀ entry ∈ m.controlTypes,
          ¬ how.Finds (TypeToken.unwrapped token) entry.1)
      ∧ (∀ how how' target, (Note.typeFound how (TypeToken.unwrapped token) target).message
        = (Note.typeFound how' (TypeToken.unwrapped token) target).message → how = how')
      ∧ (∀ how target, IsFound m.controlTypes (TypeToken.unwrapped token) how target →
        ∃ first target', (m.merged upper).resolve token
            = some (target', .typeFound first (TypeToken.unwrapped token) target')
          ∧ ∃ before after, ways = before ++ how :: after ∧ first ∈ before ++ [how])
      ∧ ∀ target, Table.get? upper.controlTypes (TypeToken.unwrapped token) = some target →
        (m.merged upper).resolve token
          = some (target, .typeFound .exact (TypeToken.unwrapped token) target) := by
  refine ⟨fun target note => resolve_eq_some_iff, resolve_eq_none_iff, fun how how' target =>
    how_of_message, fun how target h => ?_, fun target h => ?_⟩
  · obtain ⟨first, target', hfound, hfirst⟩ := exists_isFound_merged upper h
    exact ⟨first, target', resolve_eq_some_iff.2 ⟨first, hfound, rfl⟩, hfirst⟩
  · refine resolve_exact ?_
    rw [(isLayered_merged m hover).types.values, h]
    rfl

theorem resolve_in_order_bold : boldMapping.IsValid
    ∧ IsFound fontMapping.controlTypes "läbel@1.2".toList .baseCaseless "Text@1".toList
    ∧ (∃ first target, (fontMapping.merged boldMapping).resolve "'läbel@1.2' ".toList
      = some (target, .typeFound first "läbel@1.2".toList target))
    ∧ (fontMapping.merged boldMapping).resolve " LÄBEL".toList
      = some ("Text@2".toList, .typeFound .exact "LÄBEL".toList "Text@2".toList) := by
  have hbold : boldMapping.IsValid :=
    isValid_ofText (eq_ok_of_toOption
      (by decide +kernel : (ofText (boldMapping.toJson.renderAt none 0)).toOption = some boldMapping))
  have hfound : IsFound fontMapping.controlTypes "läbel@1.2".toList .baseCaseless "Text@1".toList :=
    ⟨⟨"Läbel".toList, [], [], rfl, by decide +kernel, by simp⟩,
      [.exact, .base, .caseless], [], rfl, by decide +kernel⟩
  refine ⟨hbold, hfound, ?_, ?_⟩
  · obtain ⟨first, target, hresolve, -⟩ :=
      (resolve_in_order fontMapping hbold "'läbel@1.2' ".toList).2.2.2.1 .baseCaseless _ hfound
    exact ⟨first, target, hresolve⟩
  · exact (resolve_in_order fontMapping hbold " LÄBEL".toList).2.2.2.2 _ (by decide +kernel)

end Mapping

end ModernControls
