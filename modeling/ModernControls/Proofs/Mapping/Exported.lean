import ModernControls.Proofs.Json.RoundTrip
import ModernControls.Proofs.Mapping.Usable

/-!
# Exported configurations

What is exported is read again as the configuration that it was made of: the tables with their keys
in their order, and every default as what it was. Tables of properties are told from a common table
alone, whatever they hold.

**Data (`Mapping.IsData`).** Every key once in every table and every object, and defaults of a shape
that a default may have.

**Obtained configurations (`Obtained`).** Those that were read from text or from data, the built-in
one, and what is made of these by laying one over another.

Results:
- `obtained_iff`: obtained configurations are the usable ones of data;
- `withCommonTable_tables`: tables of properties are never taken for the common table;
- `ofJson_toJson`: a usable configuration of data is read from its JSON;
- `hasShortDefaults_ofText`: what is read of text has no long integers;
- `ofText_toText`: when an obtained configuration with integers only is read from its text.
-/
namespace ModernControls.Mapping

variable {α : Type}

/-- Whether the tables have every key once, and so have the tables in them. -/
def DistinctKeys (tables : Table (Table α)) : Prop :=
  (Table.keys tables).Nodup ∧ ∀ table ∈ tables, (Table.keys table.2).Nodup

/-- Whether a value has a shape that a default may have. -/
def IsDefault (value : Json) : Prop := ∀ place, checkDefault place value = .ok value

/-- Whether a configuration can come out of data. -/
structure IsData (m : Mapping) : Prop where
  types : (Table.keys m.controlTypes).Nodup
  properties : DistinctKeys m.properties
  defaults : DistinctKeys m.defaults
  values : ∀ table ∈ m.defaults, ∀ entry ∈ table.2, entry.2.HasDistinctKeys ∧ IsDefault entry.2

/-- Whether the numbers among the defaults are integers. -/
def HasWholeDefaults (m : Mapping) : Prop :=
  ∀ table ∈ m.defaults, ∀ entry ∈ table.2, entry.2.IsWhole

/-- Whether a configuration was read or made of configurations that were. -/
inductive Obtained : Mapping → Prop
  | builtIn : Obtained builtIn
  | ofText {text : Text} {m : Mapping} (read : ofText text = .ok m) : Obtained m
  | ofJson {data : Json} {m : Mapping} (distinct : data.HasDistinctKeys) (read : ofJson data = .ok m) :
    Obtained m
  | merged {lower upper : Mapping} (below : Obtained lower) (above : Obtained upper) :
    Obtained (lower.merged upper)

/-! ## What is read of tables -/

/-- Checked entries have the keys of those that were given, and each was checked. -/
theorem checkEntries_ok {check : Text → Json → Checked α} {fields : List (Text × Json)}
    {t : Table α} (h : checkEntries check fields = .ok t) :
    Table.keys t = Table.keys fields
      ∧ ∀ entry ∈ t, ∃ value, (entry.1, value) ∈ fields ∧ check entry.1 value = .ok entry.2 := by
  induction fields generalizing t with
  | nil => cases h; exact ⟨rfl, fun _ he => absurd he List.not_mem_nil⟩
  | cons field fields ih =>
    obtain ⟨key, value⟩ := field
    obtain ⟨r, hr, rfl⟩ := exists_of_map h
    obtain ⟨hcheck, hrest⟩ := both_ok hr
    obtain ⟨hkeys, heach⟩ := ih hrest
    refine ⟨congrArg (key :: ·) hkeys, fun entry he => ?_⟩
    rcases List.mem_cons.1 he with rfl | he
    · exact ⟨value, List.mem_cons_self, hcheck⟩
    · obtain ⟨v, hv, hc⟩ := heach entry he
      exact ⟨v, List.mem_cons_of_mem _ hv, hc⟩

/-- A table that is read of data has every key once, and its values were read of data. -/
theorem checkTable_ok {place : List Text} {check : List Text → Json → Checked α} {value : Json}
    (hd : value.HasDistinctKeys) {t : Table α} (h : checkTable place check value = .ok t) :
    (Table.keys t).Nodup
      ∧ ∀ entry ∈ t, ∃ v : Json, v.HasDistinctKeys ∧ check (place ++ [entry.1]) v = .ok entry.2 := by
  cases hd with
  | object distinct each =>
    obtain ⟨hkeys, heach⟩ := checkEntries_ok h
    refine ⟨hkeys ▸ distinct, fun entry he => ?_⟩
    obtain ⟨v, hv, hc⟩ := heach entry he
    exact ⟨v, each _ hv, hc⟩
  | _ => cases h

/-- The values of a table that is read of data without long integers were read of such. -/
theorem exists_of_checkTable {place : List Text} {check : List Text → Json → Checked α}
    {value : Json} (hs : value.isShort = true) {t : Table α}
    (h : checkTable place check value = .ok t) :
    ∀ entry ∈ t, ∃ v : Json, v.isShort = true ∧ check (place ++ [entry.1]) v = .ok entry.2 := by
  cases value with
  | object fields =>
    intro entry he
    obtain ⟨v, hv, hc⟩ := (checkEntries_ok h).2 entry he
    exact ⟨v, Json.areShortFields_iff.1 hs _ hv, hc⟩
  | _ => cases h

theorem distinctKeys_ok {place : List Text} {check : List Text → Json → Checked α} {value : Json}
    (hd : value.HasDistinctKeys) {tables : Table (Table α)}
    (h : checkTable place (checkTable · check) value = .ok tables) : DistinctKeys tables := by
  obtain ⟨hkeys, heach⟩ := checkTable_ok hd h
  refine ⟨hkeys, fun table ht => ?_⟩
  obtain ⟨v, hv, hc⟩ := heach table ht
  exact (checkTable_ok hv hc).1

theorem checkDefault_ok {place : List Text} {value found : Json}
    (h : checkDefault place value = .ok found) : found = value ∧ IsDefault value := by
  cases value with
  | null => cases h
  | array items => cases h
  | _ => exact ⟨(Except.ok.inj h).symm, fun _ => rfl⟩

theorem distinctKeys_withCommonTable {value : Json} (h : value.HasDistinctKeys) :
    (withCommonTable value).HasDistinctKeys := by
  unfold withCommonTable
  split
  · exact h
  · split
    · exact .object (List.nodup_cons.2 ⟨List.not_mem_nil, List.nodup_nil⟩) fun field hf =>
        List.mem_singleton.1 hf ▸ h
    · exact h
  · exact h

/-! ## What is read of data -/

theorem distinctKeys_get? {fields : Table Json} (h : (Json.object fields).HasDistinctKeys) {key : Text}
    {value : Json} (hv : fields.get? key = some value) : value.HasDistinctKeys := by
  cases h with
  | object _ each => exact each _ (Table.mem_of_get? hv)

theorem nodup_checkTypes {fields : Table Json} (hd : (Json.object fields).HasDistinctKeys)
    {types : Table Text} (h : checkTypes fields = .ok types) : (Table.keys types).Nodup := by
  unfold checkTypes at h
  dsimp only at h
  split at h
  · next hv => exact (checkTable_ok (distinctKeys_get? hd hv) (withoutFault_ok h).1).1
  · split at h
    · next hv => exact (checkTable_ok (distinctKeys_get? hd hv) (withoutFault_ok h).1).1
    · cases h

theorem distinct_checkProperties {fields : Table Json} (hd : (Json.object fields).HasDistinctKeys)
    {tables : Table (Table (Option Text))} (h : checkProperties fields = .ok tables) :
    DistinctKeys tables := by
  unfold checkProperties at h
  split at h
  · cases h
  · next hv =>
    exact distinctKeys_ok (distinctKeys_withCommonTable (distinctKeys_get? hd hv)) (withoutFault_ok h).1

theorem values_checkDefaults {fields : Table Json} (hd : (Json.object fields).HasDistinctKeys)
    {tables : Table (Table Json)} (h : checkDefaults fields = .ok tables) :
    DistinctKeys tables
      ∧ ∀ table ∈ tables, ∀ entry ∈ table.2, entry.2.HasDistinctKeys ∧ IsDefault entry.2 := by
  unfold checkDefaults at h
  split at h
  · cases h
    exact ⟨⟨List.nodup_nil, fun _ ht => absurd ht List.not_mem_nil⟩,
      fun _ ht => absurd ht List.not_mem_nil⟩
  · next hv =>
    have hshape := (withoutFault_ok h).1
    have hvalue := distinctKeys_get? hd hv
    refine ⟨distinctKeys_ok hvalue hshape, fun table ht entry he => ?_⟩
    obtain ⟨inner, hinner, ht⟩ := (checkTable_ok hvalue hshape).2 table ht
    obtain ⟨v, hv, hc⟩ := (checkTable_ok hinner ht).2 entry he
    obtain ⟨hsame, hdefault⟩ := checkDefault_ok hc
    exact hsame ▸ ⟨hv, hdefault⟩

/-- What is read of data is data. -/
theorem isData_ofJson {data : Json} (hd : data.HasDistinctKeys) {m : Mapping} (h : ofJson data = .ok m) :
    m.IsData := by
  cases data with
  | object fields =>
    simp only [ofJson] at h
    split at h
    · next hall =>
      cases h
      obtain ⟨htypes, hrest⟩ := both_ok hall
      obtain ⟨hproperties, hrest⟩ := both_ok hrest
      obtain ⟨hdefaults, hvalues⟩ := values_checkDefaults hd (both_ok hrest).1
      exact ⟨nodup_checkTypes hd htypes, distinct_checkProperties hd hproperties, hdefaults,
        hvalues⟩
    · cases h
  | _ => cases h

/-- What is read of data without long integers has none among its defaults. -/
theorem hasShortDefaults_ofJson {data : Json} (hs : data.isShort = true) {m : Mapping}
    (h : ofJson data = .ok m) : m.HasShortDefaults := by
  cases data with
  | object fields =>
    simp only [ofJson] at h
    split at h
    · next hall =>
      cases h
      have hdefaults := (both_ok (both_ok (both_ok hall).2).2).1
      unfold checkDefaults at hdefaults
      split at hdefaults
      · cases hdefaults
        exact fun _ ht => absurd ht List.not_mem_nil
      · next hv =>
        have hvalue := Json.areShortFields_iff.1 hs _ (Table.mem_of_get? hv)
        intro table ht entry he
        obtain ⟨inner, hinner, ht⟩ := exists_of_checkTable hvalue (withoutFault_ok hdefaults).1 table ht
        obtain ⟨v, hshort, hc⟩ := exists_of_checkTable hinner ht entry he
        exact (checkDefault_ok hc).1 ▸ hshort
    · cases h
  | _ => cases h

/-- What is read of text has none either. -/
theorem hasShortDefaults_ofText {text : Text} {m : Mapping} (h : ofText text = .ok m) :
    m.HasShortDefaults := by
  unfold ofText at h
  split at h
  · next hparse => exact hasShortDefaults_ofJson (Json.isData_parse hparse).isShort h
  · cases h
  · cases h

theorem isData_ofText {text : Text} {m : Mapping} (h : ofText text = .ok m) : m.IsData := by
  unfold ofText at h
  split at h
  · next hparse => exact isData_ofJson (Json.isData_parse hparse).hasDistinctKeys h
  · cases h
  · cases h

/-- The defaults that are built in are texts. -/
theorem builtIn_defaults : ∀ table ∈ builtIn.defaults, ∀ entry ∈ table.2,
    ∃ t, entry.2 = .string t := by simp [builtIn, builtInDefaults]

theorem isData_builtIn : builtIn.IsData where
  types := by decide +kernel
  properties := by
    unfold DistinctKeys
    decide +kernel
  defaults := by
    unfold DistinctKeys
    decide +kernel
  values table ht entry he := by
    obtain ⟨t, hvalue⟩ := builtIn_defaults table ht entry he
    exact hvalue ▸ ⟨.string t, fun _ => rfl⟩

/-! ## Layers -/

theorem distinctKeys_layTables {lower upper : Table (Table α)} (h : DistinctKeys lower) :
    DistinctKeys (layTables lower upper) := by
  induction upper generalizing lower with
  | nil => exact h
  | cons first rest ih =>
    refine ih ⟨Table.nodup_insert h.1 _ _, fun table ht => ?_⟩
    rcases Table.of_mem_insert ht with ht | rfl
    · exact h.2 table ht
    · refine Table.nodup_insertAll ?_ first.2
      cases hg : Table.get? lower first.1 with
      | none => exact List.nodup_nil
      | some below => exact h.2 _ (Table.mem_of_get? hg)

theorem isData_merged {lower upper : Mapping} (hl : lower.IsData) (hu : upper.IsData) :
    (lower.merged upper).IsData where
  types := Table.nodup_insertAll hl.types _
  properties := distinctKeys_layTables hl.properties
  defaults := distinctKeys_layTables hl.defaults
  values := forall_mem_layTables
    (p := fun e : Text × Json => e.2.HasDistinctKeys ∧ IsDefault e.2) hl.values hu.values

/-- Two layers with integers only make a configuration with integers only. -/
theorem hasWholeDefaults_merged {lower upper : Mapping} (hl : lower.HasWholeDefaults)
    (hu : upper.HasWholeDefaults) : (lower.merged upper).HasWholeDefaults :=
  forall_mem_layTables (p := fun e : Text × Json => e.2.IsWhole) hl hu

theorem hasShortDefaults_merged {lower upper : Mapping} (hl : lower.HasShortDefaults)
    (hu : upper.HasShortDefaults) : (lower.merged upper).HasShortDefaults :=
  forall_mem_layTables (p := fun e : Text × Json => e.2.isShort = true) hl hu

theorem hasWholeDefaults_builtIn : builtIn.HasWholeDefaults := fun table ht entry he => by
  obtain ⟨t, hvalue⟩ := builtIn_defaults table ht entry he
  exact hvalue ▸ .string t

/-! ## Export and import -/

theorem checkEntries_map {check : Text → Json → Checked α} (json : α → Json) {t : Table α}
    (h : ∀ entry ∈ t, check entry.1 (json entry.2) = .ok entry.2) :
    checkEntries check (t.map fun (key, value) => (key, json value)) = .ok t := by
  induction t with
  | nil => rfl
  | cons entry rest ih =>
    have hrest := ih fun e he => h e (List.mem_cons_of_mem _ he)
    rw [List.map_cons, checkEntries, h entry List.mem_cons_self, hrest]
    rfl

theorem checkEntries_self {check : Text → Json → Checked Json} {t : Table Json}
    (h : ∀ entry ∈ t, check entry.1 entry.2 = .ok entry.2) : checkEntries check t = .ok t := by
  have hread : checkEntries check (t.map id) = .ok t := checkEntries_map id h
  rwa [List.map_id] at hread

/-- Tables of properties are never taken for the common table: the first of them is no target. -/
theorem withCommonTable_tables (tables : Table (Table (Option Text))) :
    withCommonTable (.object (tables.map fun (k, t) =>
        (k, .object (t.map fun (p, v) => (p, targetJson v)))))
      = .object (tables.map fun (k, t) => (k, .object (t.map fun (p, v) => (p, targetJson v)))) := by
  cases tables with
  | nil => rfl
  | cons table rest => rfl

theorem checkTarget_targetJson (place : List Text) (target : Option Text) :
    checkTarget place (targetJson target) = .ok target := by cases target <;> rfl

theorem withoutFault_eq {field : Text} {fault? : α → Option EntryFault} {part : α}
    (h : fault? part = none) : withoutFault field fault? part = .ok part := by
  rw [withoutFault, h]

/-- The parts of an exported configuration under their names. -/
def exported (types properties defaults : Json) : Table Json :=
  [(controlTypesName, types), (propertiesName, properties), (defaultsName, defaults)]

theorem checkTypes_exported {types : Table Text} (properties defaults : Json)
    (h : ∀ entry ∈ types, entry.1.isAllBlank = false ∧ entry.2.isAllBlank = false) :
    checkTypes (exported (.object (types.map fun (k, v) => (k, .string v))) properties defaults)
      = .ok types := by
  have hshape : checkTable [controlTypesName] checkText
      (.object (types.map fun (k, v) => (k, .string v))) = .ok types :=
    checkEntries_map Json.string fun _ _ => rfl
  show (checkTable [controlTypesName] checkText _ >>= withoutFault controlTypesName typesFault?) = _
  rw [hshape]
  exact withoutFault_eq (typesFault?_eq_none.2 h)

theorem checkProperties_exported (types defaults : Json) {tables : Table (Table (Option Text))}
    (h : ∀ table ∈ tables, ∀ entry ∈ table.2, ∀ target ∈ entry.2, IsKeyPath target) :
    checkProperties (exported types (.object (tables.map fun (k, t) =>
        (k, .object (t.map fun (p, v) => (p, targetJson v))))) defaults) = .ok tables := by
  have hshape : checkTable [propertiesName] (checkTable · checkTarget)
      (.object (tables.map fun (k, t) => (k, .object (t.map fun (p, v) => (p, targetJson v)))))
        = .ok tables := by
    refine checkEntries_map (fun t : Table (Option Text) =>
      Json.object (t.map fun (p, v) => (p, targetJson v))) fun table _ => ?_
    exact checkEntries_map targetJson fun entry _ => checkTarget_targetJson _ entry.2
  show (checkTable [propertiesName] (checkTable · checkTarget) (withCommonTable _)
    >>= withoutFault propertiesName (firstFault? targetFault?)) = _
  rw [withCommonTable_tables, hshape]
  exact withoutFault_eq (firstFault?_eq_none.2 fun table ht entry he =>
    targetFault?_eq_none.2 (h table ht entry he))

theorem checkDefaults_exported (types properties : Json) {tables : Table (Table Json)}
    (hd : ∀ table ∈ tables, ∀ entry ∈ table.2, IsDefault entry.2)
    (h : ∀ table ∈ tables, ∀ entry ∈ table.2,
      ∃ value, Property.ofPlain entry.2.toPlain = .ok value) :
    checkDefaults (exported types properties (.object (tables.map fun (k, t) => (k, .object t))))
      = .ok tables := by
  have hshape : checkTable [defaultsName] (checkTable · checkDefault)
      (.object (tables.map fun (k, t) => (k, .object t))) = .ok tables :=
    checkEntries_map Json.object fun table ht =>
      checkEntries_self fun entry he => hd table ht entry he _
  show (checkTable [defaultsName] (checkTable · checkDefault) _
    >>= withoutFault defaultsName (firstFault? defaultFault?)) = _
  rw [hshape]
  exact withoutFault_eq (firstFault?_eq_none.2 fun table ht entry he =>
    defaultFault?_eq_none.2 (h table ht entry he))

/-- A usable configuration of data is read from its JSON. -/
theorem ofJson_toJson {m : Mapping} (hd : m.IsData) (hu : m.Usable) : ofJson m.toJson = .ok m := by
  have hnames (types properties defaults : Json) :
      checkNames (exported types properties defaults) = .ok () := rfl
  show ofJson (.object (exported _ _ _)) = _
  simp only [ofJson, checkTypes_exported _ _ hu.types, checkProperties_exported _ _ hu.targets,
    checkDefaults_exported _ _ (fun table ht entry he => (hd.values table ht entry he).2)
      hu.defaults, hnames, both]

theorem distinctKeys_table (json : α → Json) {t : Table α} (hk : (Table.keys t).Nodup)
    (h : ∀ entry ∈ t, (json entry.2).HasDistinctKeys) :
    (Json.object (t.map fun (k, v) => (k, json v))).HasDistinctKeys := by
  refine .object ?_ fun field hf => ?_
  · rwa [Table.keys, List.map_map]
  · obtain ⟨entry, he, rfl⟩ := List.mem_map.1 hf
    exact h entry he

theorem isWhole_table (json : α → Json) {t : Table α} (h : ∀ entry ∈ t, (json entry.2).IsWhole) :
    (Json.object (t.map fun (k, v) => (k, json v))).IsWhole := by
  refine .object fun field hf => ?_
  obtain ⟨entry, he, rfl⟩ := List.mem_map.1 hf
  exact h entry he

/-- What is exported of a configuration of data has every key once. -/
theorem distinctKeys_toJson {m : Mapping} (hd : m.IsData) : m.toJson.HasDistinctKeys := by
  have htypes := distinctKeys_table Json.string hd.types fun entry _ => .string entry.2
  have htargets := distinctKeys_table (fun t : Table (Option Text) =>
      Json.object (t.map fun (p, v) => (p, targetJson v))) hd.properties.1 fun table ht =>
    distinctKeys_table targetJson (hd.properties.2 table ht) fun entry _ => by
      cases entry.2 with
      | none => exact .null
      | some target => exact .string target
  have hdefaults := distinctKeys_table Json.object hd.defaults.1 fun table ht =>
    .object (hd.defaults.2 table ht) fun entry he => (hd.values table ht entry he).1
  have hnames : [controlTypesName, propertiesName, defaultsName].Nodup := by decide
  refine .object hnames fun field hf => ?_
  simp only [List.mem_cons, List.not_mem_nil, or_false] at hf
  rcases hf with rfl | rfl | rfl
  · exact htypes
  · exact htargets
  · exact hdefaults

/-- Obtained configurations are usable data. -/
theorem isData_of_obtained {m : Mapping} (h : m.Obtained) : m.IsData ∧ m.Usable := by
  induction h with
  | builtIn => exact ⟨isData_builtIn, usable_builtIn⟩
  | ofText read => exact ⟨isData_ofText read, usable_ofText read⟩
  | ofJson distinct read => exact ⟨isData_ofJson distinct read, usable_ofJson read⟩
  | merged _ _ below above =>
    exact ⟨isData_merged below.1 above.1, usable_merged below.2 above.2⟩

/-- What is obtained is every usable configuration of data: it is read of its own JSON. -/
theorem obtained_iff {m : Mapping} : m.Obtained ↔ m.IsData ∧ m.Usable :=
  ⟨isData_of_obtained, fun ⟨hd, hu⟩ => .ofJson (distinctKeys_toJson hd) (ofJson_toJson hd hu)⟩

/-- The only numbers in what is exported are those of the defaults. -/
theorem isWhole_toJson {m : Mapping} (h : m.HasWholeDefaults) : m.toJson.IsWhole := by
  have htypes := isWhole_table Json.string fun entry (_ : entry ∈ m.controlTypes) =>
    .string entry.2
  have htargets := isWhole_table (fun t : Table (Option Text) =>
      Json.object (t.map fun (p, v) => (p, targetJson v))) fun table (_ : table ∈ m.properties) =>
    isWhole_table targetJson fun entry _ => by
      cases entry.2 with
      | none => exact .null
      | some target => exact .string target
  have hdefaults := isWhole_table Json.object fun table (ht : table ∈ m.defaults) =>
    .object fun entry he => h table ht entry he
  refine .object fun field hf => ?_
  simp only [List.mem_cons, List.not_mem_nil, or_false] at hf
  rcases hf with rfl | rfl | rfl
  · exact htypes
  · exact htargets
  · exact hdefaults

theorem isShort_table (json : α → Json) (t : Table α) :
    (Json.object (t.map fun (k, v) => (k, json v))).isShort = true
      ↔ ∀ entry ∈ t, (json entry.2).isShort = true :=
  Json.areShortFields_iff.trans List.forall_mem_map

/-- The only numbers that may be too long to be written are those of the defaults. -/
theorem isShort_toJson (m : Mapping) : m.toJson.isShort = true ↔ m.HasShortDefaults := by
  have htypes := (isShort_table Json.string m.controlTypes).2 fun _ _ => rfl
  have htargets := (isShort_table (fun t : Table (Option Text) =>
      Json.object (t.map fun (p, v) => (p, targetJson v))) m.properties).2 fun table _ =>
    (isShort_table targetJson table.2).2 fun entry _ => by cases entry.2 <;> rfl
  have hdefaults := isShort_table Json.object m.defaults
  rw [toJson, Json.isShort, Json.areShortFields_iff]
  simp only [List.forall_mem_cons, htypes, htargets, hdefaults, true_and, List.not_mem_nil,
    false_implies, implies_true, and_true]
  exact forall₂_congr fun table _ => Json.areShortFields_iff

/-- An obtained configuration whose default numbers are integers is exported and read again as it
is, at every indentation, just if none of these is too long to be written; otherwise it is not
exported at all. -/
theorem ofText_toText {m : Mapping} (h : m.Obtained) (hw : m.HasWholeDefaults)
    (indent : Option Nat) :
    ((∃ text, m.toText indent = some text ∧ ofText text = .ok m) ↔ m.HasShortDefaults)
      ∧ (m.toText indent = none ↔ ¬m.HasShortDefaults) := by
  obtain ⟨hd, hu⟩ := isData_of_obtained h
  have hnone : m.toText indent = none ↔ ¬m.HasShortDefaults :=
    Json.render_eq_none_iff.trans (not_congr (isShort_toJson m))
  refine ⟨⟨?_, fun hs => ?_⟩, hnone⟩
  · rintro ⟨text, htext, -⟩
    by_contra hlong
    rw [hnone.2 hlong] at htext
    cases htext
  · obtain ⟨text, htext, hparse⟩ := (Json.parse_render_iff (distinctKeys_toJson hd)
      (isWhole_toJson hw) indent).2 ((isShort_toJson m).2 hs)
    refine ⟨text, htext, ?_⟩
    rw [ofText, hparse]
    exact ofJson_toJson hd hu

/-- The default for a font: an integer, and a text that could be one. -/
def fontDefault : Json :=
  .object [("Size".toList, .int (-12)), ("Né".toList, .string "1".toList)]

/-- A configuration whose properties are the common table, and whose types have their other name. -/
def fontJson : Json :=
  .object
    [(controlTypesOtherName, .object [("Läbel".toList, .string "Text@1".toList)]),
      (propertiesName,
        .object [("Color".toList, .string "Font.Color".toList), ("Size".toList, .null)]),
      (defaultsName,
        .object [("Text".toList, .object [("On".toList, .bool true), ("Font".toList, fontDefault)])])]

/-- What is read of it. -/
def fontMapping : Mapping :=
  ⟨[("Läbel".toList, "Text@1".toList)],
    [(commonKey, [("Color".toList, some "Font.Color".toList), ("Size".toList, none)])],
    [("Text".toList, [("On".toList, .bool true), ("Font".toList, fontDefault)])]⟩

theorem hasWholeDefaults_font : fontMapping.HasWholeDefaults := by
  intro table ht entry he
  obtain rfl := List.mem_singleton.1 ht
  simp only [List.mem_cons, List.not_mem_nil, or_false] at he
  rcases he with rfl | rfl
  · exact .bool true
  · refine .object fun field hf => ?_
    simp only [List.mem_cons, List.not_mem_nil, or_false] at hf
    rcases hf with rfl | rfl
    · exact .int (-12)
    · exact .string _

theorem hasShortDefaults_font : fontMapping.HasShortDefaults := by
  unfold HasShortDefaults
  decide +kernel

theorem ofText_toText_font : (builtIn.merged fontMapping).Obtained
    ∧ (builtIn.merged fontMapping).HasWholeDefaults
    ∧ ∃ text, (builtIn.merged fontMapping).toText (some exportIndent) = some text
      ∧ ofText text = .ok (builtIn.merged fontMapping) := by
  have hread : ofText (fontJson.renderAt none 0) = .ok fontMapping :=
    eq_ok_of_toOption (by decide +kernel)
  have hobtained := Obtained.builtIn.merged (.ofText hread)
  have hwhole := hasWholeDefaults_merged hasWholeDefaults_builtIn hasWholeDefaults_font
  have hshort := hasShortDefaults_merged hasShortDefaults_builtIn hasShortDefaults_font
  exact ⟨hobtained, hwhole, (ofText_toText hobtained hwhole (some exportIndent)).1.2 hshort⟩

theorem isData_typedEngine (n : Int) : (Engine.typedEngine (.int n)).mapping.IsData where
  types := List.nodup_nil
  properties := ⟨List.pairwise_singleton _ _, fun table ht =>
    List.mem_singleton.1 ht ▸ List.nodup_nil⟩
  defaults := ⟨List.pairwise_singleton _ _, fun table ht =>
    List.mem_singleton.1 ht ▸ List.pairwise_singleton _ _⟩
  values table ht entry he := by
    obtain rfl := List.mem_singleton.1 ht
    obtain rfl := List.mem_singleton.1 he
    exact ⟨.int n, fun _ => rfl⟩

/-- A configuration whose default is an integer of too many digits is read of data, and is not
exported. -/
theorem not_ofText_toText_longDefault :
    (Engine.typedEngine (.int (Nat.pow 10 mostDigits))).mapping.Obtained
      ∧ (Engine.typedEngine (.int (Nat.pow 10 mostDigits))).mapping.HasWholeDefaults
      ∧ ∀ indent, ¬∃ text,
        (Engine.typedEngine (.int (Nat.pow 10 mostDigits))).mapping.toText indent = some text
          ∧ ofText text = .ok (Engine.typedEngine (.int (Nat.pow 10 mostDigits))).mapping := by
  have husable : (Engine.typedEngine (.int (Nat.pow 10 mostDigits))).mapping.Usable :=
    Engine.usable_ofJson (Engine.ofJson_typedMapping _)
  refine ⟨obtained_iff.2 ⟨isData_typedEngine _, husable⟩, fun table ht entry he => ?_, ?_⟩
  · obtain rfl := List.mem_singleton.1 ht
    obtain rfl := List.mem_singleton.1 he
    exact .int _
  · rintro indent ⟨text, htext, -⟩
    have hlong : isLongInteger (Nat.pow 10 mostDigits : Nat) = true :=
      isLongInteger_of_le (Nat.le_refl _)
    rw [toText, Json.render_eq_none_iff.2] at htext
    · cases htext
    · intro hshort
      have hfont := (isShort_toJson _).1 hshort _ List.mem_cons_self _ List.mem_cons_self
      rw [Json.isShort, hlong] at hfont
      cases hfont

end ModernControls.Mapping
