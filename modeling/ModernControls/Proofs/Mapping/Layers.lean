import ModernControls.Proofs.Mapping.Exported

/-!
# Layers of configurations

A configuration laid over another. Every entry is that of the upper one if it has the key, and that
of the lower one otherwise; the keys of the lower one come first, in their order, and the new ones
of the upper one after them. The same holds inside each table of properties and of defaults. What
comes out is checked again, as everything is that becomes a configuration, and is never refused.
Layers may be put together in any grouping.

**Layered tables (`Table.Layered`, `Table.LayeredTables`).** What a table is that was laid over
another, said by its keys in order and what it holds under each of them. This fixes the table, so
the laws are shown of layered tables and then hold of whatever makes them.

**Valid configurations (`Mapping.IsValid`).** Those that are read of some data.

Results:
- `Layered.assoc`, `LayeredTables.assoc`: layers in any grouping;
- `layered_insertAll`, `layeredTables_layTables`: what is laid over another is layered;
- `isLayered_merged`: so are configurations;
- `layers_merged`: the laws for configurations.
-/
namespace ModernControls

namespace Table

variable {α : Type}

/-! ## Keys -/

/-- Keys in their order, and then those of other keys that are new, in theirs. -/
def withNew (lower upper : List Text) : List Text :=
  lower ++ upper.filter fun key => !lower.contains key

theorem nil_withNew (keys : List Text) : withNew [] keys = keys := by simp [withNew]

theorem withNew_self (keys : List Text) : withNew keys keys = keys := by simp [withNew]

theorem withNew_assoc (first second third : List Text) :
    withNew (withNew first second) third = withNew first (withNew second third) := by
  unfold withNew
  rw [List.filter_append, List.filter_filter, List.append_assoc]
  congr 2
  refine List.filter_congr fun key _ => ?_
  by_cases hf : key ∈ first <;> by_cases hs : key ∈ second <;> simp [hf, hs]

/-! ## Layered tables -/

/-- Whether a table is another with a third laid over it. -/
structure Layered (lower upper out : Table α) : Prop where
  keys : Table.keys out = withNew (Table.keys lower) (Table.keys upper)
  values : ∀ key, get? out key = (get? upper key).or (get? lower key)

/-- The table under a key, empty if there is none. -/
def tableAt (tables : Table (Table α)) (key : Text) : Table α := (get? tables key).getD []

/-- Whether tables are others with further ones laid over them, table by table. -/
structure LayeredTables (lower upper out : Table (Table α)) : Prop where
  keys : Table.keys out = withNew (Table.keys lower) (Table.keys upper)
  tables : ∀ key, Layered (tableAt lower key) (tableAt upper key) (tableAt out key)

section Laws

variable {t u w tu uw out : Table α}

theorem Layered.nil_left (t : Table α) : Layered [] t t where
  keys := (nil_withNew _).symm
  values _ := (Option.or_none).symm

theorem Layered.self (t : Table α) : Layered t t t where
  keys := (withNew_self _).symm
  values _ := (Option.or_self).symm

/-- A table over one that is layered itself is layered over the lowest. -/
theorem Layered.assoc (htu : Layered t u tu) (huw : Layered u w uw) (h : Layered tu w out) :
    Layered t uw out where
  keys := by rw [h.keys, htu.keys, huw.keys, withNew_assoc]
  values key := by rw [h.values, htu.values, huw.values, Option.or_assoc]

theorem layered_insertAll (t : Table α) {u : Table α} (hu : (Table.keys u).Nodup) :
    Layered t u (insertAll t u) where
  keys := keys_insertAll hu
  values := get?_insertAll hu

/-- Of two tables there is one way to lay one over the other. -/
theorem Layered.eq {out' : Table α} (h : Layered t u out) (h' : Layered t u out')
    (hn : (Table.keys out).Nodup) : out = out' :=
  eq_of_get? hn (h.keys.trans h'.keys.symm) fun key => (h.values key).trans (h'.values key).symm

end Laws

section Tables

variable {t u w tu uw out : Table (Table α)}

theorem LayeredTables.nil_left (t : Table (Table α)) : LayeredTables [] t t where
  keys := (nil_withNew _).symm
  tables _ := .nil_left _

theorem LayeredTables.self (t : Table (Table α)) : LayeredTables t t t where
  keys := (withNew_self _).symm
  tables _ := .self _

theorem LayeredTables.assoc (htu : LayeredTables t u tu) (huw : LayeredTables u w uw)
    (h : LayeredTables tu w out) : LayeredTables t uw out where
  keys := by rw [h.keys, htu.keys, huw.keys, withNew_assoc]
  tables key := (htu.tables key).assoc (huw.tables key) (h.tables key)

end Tables

end Table

namespace Mapping

open Table

variable {α : Type}

/-! ## Tables of tables -/

theorem DistinctKeys.tableAt {tables : Table (Table α)} (h : DistinctKeys tables) (key : Text) :
    (Table.keys (tableAt tables key)).Nodup := by
  unfold Table.tableAt
  cases hg : get? tables key with
  | none => exact List.nodup_nil
  | some table => exact h.2 _ (mem_of_get? hg)

/-- Every table that is laid over others finds the one under its key as it was at first. -/
theorem layTables_eq {lower upper : Table (Table α)} (hu : (Table.keys upper).Nodup) :
    layTables lower upper
      = insertAll lower (upper.map fun e => (e.1, (tableAt lower e.1).insertAll e.2)) := by
  induction upper generalizing lower with
  | nil => rfl
  | cons first rest ih =>
    -- The first table goes under a key of its own, so the others do not see it.
    obtain ⟨hnew, hrest⟩ := List.nodup_cons.1 hu
    have hstep : layTables lower (first :: rest) = layTables (layTable lower first) rest := rfl
    have hothers : rest.map (fun e => (e.1, (tableAt (layTable lower first) e.1).insertAll e.2))
        = rest.map fun e => (e.1, (tableAt lower e.1).insertAll e.2) :=
      List.map_congr_left fun e he => by
        have hne : e.1 ≠ first.1 := fun h => hnew (List.mem_map.2 ⟨e, he, h⟩)
        rw [tableAt, layTable, get?_insert_of_ne lower _ hne, tableAt]
    rw [hstep, ih hrest, hothers]
    rfl

theorem layeredTables_layTables (lower : Table (Table α)) {upper : Table (Table α)}
    (hu : DistinctKeys upper) : LayeredTables lower upper (layTables lower upper) := by
  have hkeys : Table.keys (upper.map fun e => (e.1, (tableAt lower e.1).insertAll e.2))
      = Table.keys upper := by
    rw [Table.keys, List.map_map]
    rfl
  have hn := hkeys ▸ hu.1
  constructor
  · rw [layTables_eq hu.1, keys_insertAll hn, hkeys]
    rfl
  · intro key
    have htable : tableAt (layTables lower upper) key
        = (tableAt lower key).insertAll (tableAt upper key) := by
      rw [tableAt, layTables_eq hu.1, get?_insertAll hn,
        get?_map fun key table => (tableAt lower key).insertAll table]
      unfold tableAt
      cases get? upper key <;> rfl
    rw [htable]
    exact layered_insertAll _ (hu.tableAt key)

/-- Of tables of tables there is one way to lay some over others. -/
theorem DistinctKeys.eq_of_layered {t u out out' : Table (Table α)} (hd : DistinctKeys out)
    (h : LayeredTables t u out) (h' : LayeredTables t u out') : out = out' := by
  have hkeys := h.keys.trans h'.keys.symm
  refine eq_of_get? hd.1 hkeys fun key => ?_
  have htable := (h.tables key).eq (h'.tables key) (hd.tableAt key)
  unfold Table.tableAt at htable
  by_cases hk : key ∈ Table.keys out
  · obtain ⟨x, hx⟩ := Option.isSome_iff_exists.1 ((get?_isSome_iff out key).2 hk)
    obtain ⟨x', hx'⟩ := Option.isSome_iff_exists.1 ((get?_isSome_iff out' key).2 (hkeys ▸ hk))
    rw [hx, hx'] at htable ⊢
    exact congrArg some htable
  · rw [get?_eq_none_iff.2 hk, get?_eq_none_iff.2 (hkeys ▸ hk)]

/-! ## Configurations -/

/-- Whether a configuration can be read of data. -/
def IsValid (m : Mapping) : Prop := ∃ data, data.HasDistinctKeys ∧ ofJson data = .ok m

/-- Whether a configuration is another with a third laid over it. -/
structure IsLayered (lower upper out : Mapping) : Prop where
  types : Layered lower.controlTypes upper.controlTypes out.controlTypes
  properties : LayeredTables lower.properties upper.properties out.properties
  defaults : LayeredTables lower.defaults upper.defaults out.defaults

variable {a b c m out : Mapping}

theorem isValid_iff : m.IsValid ↔ m.IsData ∧ m.Usable := by
  constructor
  · rintro ⟨data, hd, h⟩
    exact ⟨isData_ofJson hd h, usable_ofJson h⟩
  · rintro ⟨hd, hu⟩
    exact ⟨m.toJson, distinctKeys_toJson hd, ofJson_toJson hd hu⟩

/-- What is read of text is valid. -/
theorem isValid_ofText {text : Text} (h : ofText text = .ok m) : m.IsValid :=
  isValid_iff.2 ⟨isData_ofText h, usable_ofText h⟩

theorem isValid_merged (ha : a.IsValid) (hb : b.IsValid) : (a.merged b).IsValid := by
  obtain ⟨had, hau⟩ := isValid_iff.1 ha
  obtain ⟨hbd, hbu⟩ := isValid_iff.1 hb
  exact isValid_iff.2 ⟨isData_merged had hbd, usable_merged hau hbu⟩

/-- A valid configuration is read of its own JSON. -/
theorem IsValid.ofJson_toJson (h : m.IsValid) : ofJson m.toJson = .ok m :=
  Mapping.ofJson_toJson (isValid_iff.1 h).1 (isValid_iff.1 h).2

theorem isLayered_merged (a : Mapping) (hb : b.IsValid) : IsLayered a b (a.merged b) where
  types := layered_insertAll _ (isValid_iff.1 hb).1.types
  properties := layeredTables_layTables _ (isValid_iff.1 hb).1.properties
  defaults := layeredTables_layTables _ (isValid_iff.1 hb).1.defaults

/-- A valid configuration that is layered is what is made by laying one over the other. -/
theorem IsLayered.eq_merged (h : IsLayered a b out) (hb : b.IsValid) (ho : out.IsValid) :
    out = a.merged b := by
  obtain ⟨hd, -⟩ := isValid_iff.1 ho
  have hmerged := isLayered_merged a hb
  have htypes := h.types.eq hmerged.types hd.types
  have hproperties := hd.properties.eq_of_layered h.properties hmerged.properties
  have hdefaults := hd.defaults.eq_of_layered h.defaults hmerged.defaults
  show (⟨out.controlTypes, out.properties, out.defaults⟩ : Mapping) = a.merged b
  rw [htypes, hproperties, hdefaults]

theorem empty_merged (ha : a.IsValid) : empty.merged a = a :=
  (IsLayered.eq_merged ⟨.nil_left _, .nil_left _, .nil_left _⟩ ha ha).symm

theorem merged_self (ha : a.IsValid) : a.merged a = a :=
  (IsLayered.eq_merged ⟨.self _, .self _, .self _⟩ ha ha).symm

theorem merged_assoc (ha : a.IsValid) (hb : b.IsValid) (hc : c.IsValid) :
    (a.merged b).merged c = a.merged (b.merged c) := by
  have hab := isLayered_merged a hb
  have hbc := isLayered_merged b hc
  have h := isLayered_merged (a.merged b) hc
  exact IsLayered.eq_merged ⟨hab.types.assoc hbc.types h.types,
    hab.properties.assoc hbc.properties h.properties,
    hab.defaults.assoc hbc.defaults h.defaults⟩ (isValid_merged hb hc)
    (isValid_merged (isValid_merged ha hb) hc)

/-- An engine that imports what it exports stays as it is. -/
theorem importData_toJson (hm : m.IsValid) (log : List Note) :
    ((⟨m, log⟩ : Engine).answer (.importData m.toJson true)).1 = ⟨m, log⟩ := by
  have hread : Engine.mappingOfData m.toJson = .ok m := hm.ofJson_toJson
  simp only [Engine.answer, hread, Engine.adopt, Engine.install, merged_self hm, if_true]

/-- Layering is total, exact in its order, and a monoid in which every configuration is absorbed by
itself. -/
theorem layers_merged (ha : a.IsValid) (hb : b.IsValid) (hc : c.IsValid) :
    ofJson (a.merged b).toJson = .ok (a.merged b)
      ∧ IsLayered a b (a.merged b)
      ∧ a.merged empty = a ∧ empty.merged a = a
      ∧ (a.merged b).merged c = a.merged (b.merged c)
      ∧ a.merged a = a
      ∧ a.merged (a.merged b) = a.merged b
      ∧ ∀ log, ((⟨a.merged b, log⟩ : Engine).answer (.importData (a.merged b).toJson true)).1
          = ⟨a.merged b, log⟩ := by
  have hab := isValid_merged ha hb
  have habsorbed : a.merged (a.merged b) = a.merged b := by
    rw [← merged_assoc ha ha hb, merged_self ha]
  exact ⟨hab.ofJson_toJson, isLayered_merged a hb, merged_empty a, empty_merged ha,
    merged_assoc ha hb hc, merged_self ha, habsorbed, importData_toJson hab⟩

/-- A configuration with a type in another case, tables in another order, and a property that
another configuration moves into an object. -/
def boldMapping : Mapping :=
  ⟨[("LÄBEL".toList, "Text@2".toList), ("Läbel".toList, "Text@3".toList)],
    [("Text".toList, [("Bold".toList, some "Font.Bold".toList)]),
      (commonKey, [("Bold".toList, none), ("Color".toList, none)])],
    [("Text@2".toList, []), ("Text".toList, [("Font".toList, .string "=Arial".toList)])]⟩

theorem layers_merged_bold : builtIn.IsValid ∧ fontMapping.IsValid ∧ boldMapping.IsValid
    ∧ ofJson (builtIn.merged fontMapping).toJson = .ok (builtIn.merged fontMapping)
    ∧ IsLayered builtIn fontMapping (builtIn.merged fontMapping)
    ∧ builtIn.merged empty = builtIn ∧ empty.merged builtIn = builtIn
    ∧ (builtIn.merged fontMapping).merged boldMapping
      = builtIn.merged (fontMapping.merged boldMapping)
    ∧ builtIn.merged builtIn = builtIn
    ∧ builtIn.merged (builtIn.merged fontMapping) = builtIn.merged fontMapping
    ∧ ∀ log, ((⟨builtIn.merged fontMapping, log⟩ : Engine).answer
        (.importData (builtIn.merged fontMapping).toJson true)).1
          = ⟨builtIn.merged fontMapping, log⟩ := by
  have hbuiltIn : builtIn.IsValid := isValid_iff.2 ⟨isData_builtIn, usable_builtIn⟩
  have hfont : ofText (fontJson.renderAt none 0) = .ok fontMapping :=
    eq_ok_of_toOption (by decide +kernel)
  have hbold : ofText (boldMapping.toJson.renderAt none 0) = .ok boldMapping :=
    eq_ok_of_toOption (by decide +kernel)
  exact ⟨hbuiltIn, isValid_ofText hfont, isValid_ofText hbold,
    layers_merged hbuiltIn (isValid_ofText hfont) (isValid_ofText hbold)⟩

end Mapping

end ModernControls
