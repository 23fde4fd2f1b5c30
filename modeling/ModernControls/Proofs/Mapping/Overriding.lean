import ModernControls.Proofs.Mapping.Orders

/-!
# Values that are overridden

That a property overrides an earlier value is noted just if its write replaces one, for every
property whose key has no points or is known to the table of the modern type.

A key with points that the table does not know is the exception. Its value is put under the key as
a whole, but an earlier value is looked for along the keys between the points. The key as a whole is
always new, so nothing is ever replaced then, and the note is made whenever the other place, which
stays as it is, holds a value.

**Holding a value (`Properties.Holds`).** Something stands at a path, and not just a key without a
value.

**Overwriting (`Overwrites`).** A property has a place, there was a value there, and its own value
is there in the end.

Results:
- `overridesTold_of_placed`: the notes of one step;
- `overridesTold_mapProperties`: the notes on all properties;
- `overrides_told`: the same, with when there are any;
- `overrides_pointedKey`: a property that overrides nothing and is noted to.
-/
namespace ModernControls

namespace Properties

open Property

/-- Whether there is a value at a path. -/
def Holds (ps : Properties) (path : Path) : Prop :=
  ∃ old, (object ps).at? path = some old ∧ old ≠ .empty

variable {ps : Properties} {value : Property} {path : Path}

theorem lookup_ne_empty_iff (hp : path ≠ []) : lookup ps path ≠ .empty ↔ Holds ps path := by
  rw [lookup_eq ps hp]
  unfold Holds
  cases (object ps).at? path <;> simp

/-- Where a write fails there is no value to replace. -/
theorem not_holds_of_assign_eq_none (h : assign ps value path = none) (hp : path ≠ []) :
    ¬ Holds ps path := by
  rintro ⟨old, hat, -⟩
  rcases assign_eq_none_iff.1 h with hnil | ⟨above, below, u, rfl, -, hb, hu, hs⟩
  · exact hp hnil
  · have hobject : u.isObject = false := by
      cases u with
      | object entries => cases hs
      | _ => rfl
    rw [at?_append, hu, Option.bind_some, at?_eq_none hobject hb] at hat
    cases hat

end Properties

theorem Path.ofText_ne_nil (text : Text) : Path.ofText text ≠ [] := by
  unfold Path.ofText
  dsimp only
  split
  · next h =>
    intro hnil
    have hlength := congrArg List.length hnil
    rw [List.length_dropLast, List.length_nil] at hlength
    omega
  · exact Text.split_ne_nil '.' text

namespace Mapping

open Properties Property

/-- The place of a property as notes name it: the target that a table has for it, else its key. -/
def placeName (table : Table (Option Text)) (key : Text) : Text :=
  match table.get? key with
  | some (some target) => target
  | _ => key

/-- Whether the write of a property replaces a value. -/
def Overwrites (table : Table (Option Text)) (done out : Properties) (key : Text)
    (value : Property) : Prop :=
  ∃ path ∈ destination table key, Holds done path ∧ (object out).at? path = some value

/-- Whether it is noted just of those properties that they override a value whose write replaces
one. Of a property whose key has points and is not known to the table it is noted if there is a
value along the keys between the points, which is never replaced. -/
structure OverridesTold (table : Table (Option Text)) (done out : Properties) (key : Text)
    (value : Property) (notes : List Note) : Prop where
  named : ∀ name, Note.overrides key name ∈ notes → name = placeName table key
  told : '.' ∉ key ∨ key ∈ Table.keys table →
    (Note.overrides key (placeName table key) ∈ notes ↔ Overwrites table done out key value)
  mistaken : '.' ∈ key → key ∉ Table.keys table → ¬ Overwrites table done out key value
    ∧ (Note.overrides key (placeName table key) ∈ notes
      ↔ value ≠ .empty ∧ Holds done (Path.ofText key))

variable {m : Mapping} {table : Table (Option Text)} {done out : Properties} {key : Text}
  {value : Property} {path : Path} {r : Properties × List Note}

/-! ## One step -/

/-- Beside what becomes of a value, an override is noted if there is a value at the target. -/
theorem mem_overrideNote {target name : Text} {note : Note} (hn : note.isDisposition = true) :
    Note.overrides key name ∈ overrideNote done key target ++ [note]
      ↔ name = target ∧ Holds done (Path.ofText target) := by
  have hother : Note.overrides key name ≠ note := by
    rintro rfl
    cases hn
  rw [← lookup_ne_empty_iff (Path.ofText_ne_nil target), overrideNote, List.mem_append,
    List.mem_singleton, or_iff_left hother]
  split
  · next h => simp [h]
  · next h => simp [h]

/-- A property that writes nothing overwrites nothing. -/
theorem not_overwrites_of_empty (hv : value = .empty) : ¬ Overwrites table done done key value := by
  rintro ⟨path, -, ⟨old, hold, hne⟩, hat⟩
  rw [hold, hv] at hat
  exact hne (Option.some.inj hat)

/-- A write that goes through overwrites what was there. -/
theorem overwrites_iff_of_assign (hd : destination table key = some path)
    (ha : assign done value path = some out) :
    Overwrites table done out key value ↔ Holds done path := by
  unfold Overwrites
  rw [hd]
  constructor
  · rintro ⟨place, hp, hholds, -⟩
    exact Option.some.inj hp ▸ hholds
  · intro hholds
    have hat := at?_assign ha []
    rw [List.append_nil] at hat
    exact ⟨path, rfl, hholds, hat⟩

/-- Of a property that the table knows it is told rightly if the notes on it are. -/
theorem OverridesTold.of_known {target? : Option Text} {notes : List Note}
    (ht : table.get? key = some target?)
    (named : ∀ name, Note.overrides key name ∈ notes → name = placeName table key)
    (told : Note.overrides key (placeName table key) ∈ notes
      ↔ Overwrites table done out key value) :
    OverridesTold table done out key value notes where
  named := named
  told _ := told
  mistaken _ hm := by
    rw [Table.get?_eq_none_iff.2 hm] at ht
    cases ht

theorem overridesTold_skipped (hv : value = .empty) :
    OverridesTold table done done key value [.skipped key] := by
  have hnone : ∀ name, Note.overrides key name ∉ [Note.skipped key] := by simp
  exact ⟨fun name hm => absurd hm (hnone name),
    fun _ => iff_of_false (hnone _) (not_overwrites_of_empty hv),
    fun _ _ => ⟨not_overwrites_of_empty hv, iff_of_false (hnone _) fun h => h.1 hv⟩⟩

theorem overridesTold_dropped (ht : table.get? key = some none) :
    OverridesTold table done done key value [.dropped key] := by
  have hnone : ∀ name, Note.overrides key name ∉ [Note.dropped key] := by simp
  refine .of_known ht (fun name hm => absurd hm (hnone name)) (iff_of_false (hnone _) ?_)
  rintro ⟨path, hp, -⟩
  rw [destination, ht] at hp
  cases hp

/-- A property with a target, whether it was put there or turned away. -/
theorem overridesTold_target {target : Text} {note : Note}
    (ht : table.get? key = some (some target)) (htarget : IsKeyPath target)
    (hn : note.isDisposition = true)
    (hover : Overwrites table done out key value ↔ Holds done (target.split '.')) :
    OverridesTold table done out key value (overrideNote done key target ++ [note]) := by
  have hname : placeName table key = target := by rw [placeName, ht]
  refine .of_known ht (fun name hm => ?_) ?_
  · exact ((mem_overrideNote hn).1 hm).1.trans hname.symm
  · rw [hname, mem_overrideNote hn, ofText_of_isKeyPath htarget, hover]
    exact and_iff_right rfl

/-- A property that the table does not know is put under its key, which is new if it has points. -/
theorem overridesTold_kept (hv : value ≠ .empty) (ht : table.get? key = none)
    (ha : assign done value [key] = some out) (hnew : '.' ∈ key → key ∉ Table.keys done) :
    OverridesTold table done out key value (overrideNote done key key ++ [.kept key]) := by
  have hname : placeName table key = key := by rw [placeName, ht]
  have hd : destination table key = some [key] := by rw [destination, ht]
  have hnotes : ∀ name, Note.overrides key name ∈ overrideNote done key key ++ [Note.kept key]
      ↔ name = key ∧ Holds done (Path.ofText key) := fun name => mem_overrideNote rfl
  refine ⟨fun name hm => ((hnotes name).1 hm).1.trans hname.symm, fun hor => ?_, fun hdot _ => ?_⟩
  · have hdot : '.' ∉ key := hor.resolve_right (Table.get?_eq_none_iff.1 ht)
    rw [hname, hnotes, overwrites_iff_of_assign hd ha, ofText_of_not_mem hdot]
    exact and_iff_right rfl
  · have hnone : ¬ Holds done [key] := by
      rintro ⟨old, hat, -⟩
      rw [at?_key, Table.get?_eq_none_iff.2 (hnew hdot)] at hat
      cases hat
    rw [hname, hnotes, overwrites_iff_of_assign hd ha]
    exact ⟨hnone, and_congr_left fun _ => iff_of_true rfl hv⟩

/-- What is noted in a step tells of overrides. -/
theorem overridesTold_of_placed (hk : HasKeyPaths table) (h : Placed table done key value r)
    (hnew : '.' ∈ key → key ∉ Table.keys done) :
    OverridesTold table done r.1 key value r.2 := by
  have hd : ∀ {target : Text}, table.get? key = some (some target) →
      destination table key = some (target.split '.') := fun ht => by rw [destination, ht]
  cases h with
  | skipped hv => exact overridesTold_skipped hv
  | dropped _ ht => exact overridesTold_dropped ht
  | @blocked target _ ht ha =>
    have hnone := not_holds_of_assign_eq_none ha (Text.split_ne_nil '.' target)
    refine overridesTold_target ht (hk.target ht) rfl (iff_of_false ?_ hnone)
    rintro ⟨path, hp, hholds, -⟩
    rw [hd ht] at hp
    exact hnone (Option.some.inj hp ▸ hholds)
  | kept hv ht ha => exact overridesTold_kept hv ht ha hnew
  | converted _ ht ha =>
    exact overridesTold_target ht (hk.target ht) rfl (overwrites_iff_of_assign (hd ht) ha)

/-! ## All properties -/

/-- What is noted of overrides in a step is what is noted of them at all. -/
theorem OverridesTold.of_mem_iff {step notes : List Note}
    (h : OverridesTold table done out key value step)
    (hiff : ∀ name, Note.overrides key name ∈ notes ↔ Note.overrides key name ∈ step) :
    OverridesTold table done out key value notes where
  named name hm := h.named name ((hiff name).1 hm)
  told hor := (hiff _).trans (h.told hor)
  mistaken hdot hm := ⟨(h.mistaken hdot hm).1, (hiff _).trans (h.mistaken hdot hm).2⟩

/-- The notes on mapped properties tell of every property whether its write replaces a value. -/
theorem overridesTold_mapProperties (hm : m.Usable) {classic mapped : Properties}
    (hn : (Table.keys classic).Nodup) {modernType : Text}
    (hok : m.mapProperties classic modernType = .ok (mapped, notes)) {before after : Properties}
    (hc : classic = before ++ (key, value) :: after) :
    OverridesTold (m.propertyTable modernType)
      (placeAll (m.propertyTable modernType) [] before).1
      (placeAll (m.propertyTable modernType) [] (before ++ [(key, value)])).1 key value notes := by
  subst hc
  have hk := hasKeyPaths_propertyTable hm modernType
  obtain ⟨added, hadded, rfl⟩ := mapProperties_eq hok
  have hstep := overridesTold_of_placed hk
    (placed hk (placeAll (m.propertyTable modernType) [] before).1 key value) fun hdot hm => by
      rcases mem_keys_placeAll hk hm with hm | hm | hm
      · cases hm
      · rw [Table.keys, List.map_append, List.nodup_append] at hn
        exact hn.2.2 key hm key List.mem_cons_self rfl
      · exact hm hdot
  rw [placeAll_append]
  refine hstep.of_mem_iff fun name => ?_
  have hfilter := filter_notes hk hn (subject_addDefaults hadded) (p := Note.isAbout key)
    fun n hp => by simpa [Note.isAbout] using hp
  have habout : Note.isAbout key (.overrides key name) = true := by
    simp [Note.isAbout, Note.subject?]
  rw [← and_iff_left habout (a := _ ∈ _), ← List.mem_filter, hfilter, List.mem_filter,
    and_iff_left habout]

/-- With a usable configuration properties are mapped, unless a default that is added is too long to
be noted, and the notes tell of every property whether its write replaces a value. -/
theorem overrides_told (hm : m.Usable) {classic : Properties} (hn : (Table.keys classic).Nodup)
    (modernType : Text) :
    GivesIff (m.AddsShort classic modernType) (m.mapProperties classic modernType) fun r =>
      ∀ before key value after, classic = before ++ (key, value) :: after →
        OverridesTold (m.propertyTable modernType)
          (placeAll (m.propertyTable modernType) [] before).1
          (placeAll (m.propertyTable modernType) [] (before ++ [(key, value)])).1 key value r.2 :=
  mapProperties_givesIff hm fun _ hok _ _ _ _ hc => overridesTold_mapProperties hm hn hok hc

/-- A border with a style, as an object. -/
def styledBorder : List (Text × Property) :=
  [("Border".toList, .object [("Style".toList, .int 1)])]

/-- A key with a point, whose parts lead to that style. -/
def styleKey : Text := "Border.Style".toList

/-- A button with a radius for one corner, one for all corners, a border and that key. -/
def borderedButton : Properties :=
  [("RadiusTopLeft".toList, .int 8), ("BorderRadius".toList, .formula "4".toList)]
    ++ styledBorder ++ [(styleKey, .int 2)]

theorem overrides_told_borderedButton : builtIn.Usable ∧ (Table.keys borderedButton).Nodup
    ∧ ∃ r, builtIn.mapProperties borderedButton "Button@0.0.45".toList = .ok r
      ∧ ∀ before key value after, borderedButton = before ++ (key, value) :: after →
        OverridesTold (builtIn.propertyTable "Button@0.0.45".toList)
          (placeAll (builtIn.propertyTable "Button@0.0.45".toList) [] before).1
          (placeAll (builtIn.propertyTable "Button@0.0.45".toList) [] (before ++ [(key, value)])).1
          key value r.2 := by
  have hn : (Table.keys borderedButton).Nodup := by decide +kernel
  exact ⟨usable_builtIn, hn,
    (overrides_told usable_builtIn hn _).exists_ok (addsShort_builtIn _ _)⟩

/-- The key is noted to override a value, and nothing is replaced: the border keeps its style. -/
theorem overrides_pointedKey : builtIn.Usable
    ∧ (Table.keys (styledBorder ++ [(styleKey, int 2)])).Nodup
    ∧ ∃ mapped notes,
      builtIn.mapProperties (styledBorder ++ [(styleKey, .int 2)]) "Text@0.0.51".toList
          = .ok (mapped, notes)
        ∧ Note.overrides styleKey styleKey ∈ notes
        ∧ ¬ Overwrites (builtIn.propertyTable "Text@0.0.51".toList)
          (placeAll (builtIn.propertyTable "Text@0.0.51".toList) [] styledBorder).1 mapped styleKey
          (.int 2) := by
  refine ⟨usable_builtIn, by decide +kernel, styledBorder ++ [(styleKey, .int 2)],
    [.kept "Border".toList, .overrides styleKey styleKey, .kept styleKey],
    eq_ok_of_toOption (by decide +kernel), by decide +kernel, ?_⟩
  rintro ⟨path, hp, ⟨old, hold, -⟩, -⟩
  have hd : destination (builtIn.propertyTable "Text@0.0.51".toList) styleKey
      = some [styleKey] := by decide +kernel
  obtain rfl := Option.some.inj (hd.symm.trans hp)
  have hnew : (object (placeAll (builtIn.propertyTable "Text@0.0.51".toList) [] styledBorder).1).at?
      [styleKey] = none := by decide +kernel
  rw [hnew] at hold
  cases hold

end Mapping

end ModernControls
