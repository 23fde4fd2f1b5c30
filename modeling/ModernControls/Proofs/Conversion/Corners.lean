import Mathlib.Data.List.Forall2
import ModernControls.Proofs.Conversion.Additions

/-!
# Corner radii of a button

The rule for buttons puts the radii of single corners together in one object. What it makes of the
properties is said here without its steps, and that a second time it has nothing left to do. It then
turns out which buttons get a corner without a radius.

A property without a value counts as missing, as everywhere. So does an entry without a value when
the radius of a corner is looked for, but not when it is asked whether the object is complete: there
its key is enough. An object with all four keys, one of them without a value, is left as it is
unless there is a property for a single corner.

**Rounded properties (`Rounds`).** Those whose corner radii are put together: there is an object or
nothing in its place, and a property for a single corner or a corner whose key the object lacks.

**What becomes of properties (`Consolidated`).** Where each key is and what it holds in the end.

**Settled properties (`IsSettled`).** Those that the rule leaves alone.

Results:
- `consolidates`: putting radii together does one of three things;
- `consolidated_consolidate`: what comes out, and that it is settled;
- `hasCorners_button_iff`: every corner has a radius but for objects with an entry without a value;
- `not_hasCorners_bareButton`: such an object.
-/
namespace ModernControls

namespace Rule

open Properties Property

/-- Whether there is a property for a single corner. -/
def HasSource (modern : Properties) : Prop :=
  ∃ corner ∈ radiusCorners, corner.1 ∈ Table.keys modern

/-- Whether an object has no entry for a corner, not even one without a value. -/
def LacksCorner (object : Properties) : Prop :=
  ∃ corner ∈ radiusCorners, corner.2 ∉ Table.keys object

/-- Whether the corner radii of properties are put together in an object. -/
def Rounds (modern : Properties) : Prop :=
  valueAt modern borderRadiusKey = .empty ∧ HasSource modern
    ∨ ∃ object, valueAt modern borderRadiusKey = .object object
      ∧ (HasSource modern ∨ LacksCorner object)

/-- Whether the rule for corner radii leaves properties alone. -/
def IsSettled (modern : Properties) : Prop := ¬ HasSource modern ∧ ¬ Rounds modern

/-- The entries of the object for corner radii, if there is one. -/
def oldEntries (modern : Properties) : Properties :=
  match valueAt modern borderRadiusKey with
  | .object entries => entries
  | _ => []

/-- The radius of a corner: that in the object, else that of the property for it, else zero. -/
inductive CornerRadius (modern object : Properties) (corner : Text × Text) : Property → Prop
  | ofObject (ho : valueAt object corner.2 ≠ .empty) :
    CornerRadius modern object corner (valueAt object corner.2)
  | ofSource (ho : valueAt object corner.2 = .empty) (hs : valueAt modern corner.1 ≠ .empty) :
    CornerRadius modern object corner (valueAt modern corner.1)
  | zero (ho : valueAt object corner.2 = .empty) (hs : valueAt modern corner.1 = .empty) :
    CornerRadius modern object corner (.int 0)

/-- Whether an object has the four corners first, in their order and with their radii, and then all
other entries of an earlier one, in theirs. -/
def HasRadii (modern object : Properties) (entries : Properties) : Prop :=
  ∃ corners, entries = corners ++ object.filter (fun e => !(radiusCorners.map (·.2)).contains e.1)
    ∧ List.Forall₂ (fun corner e => e.1 = corner.2 ∧ CornerRadius modern object corner e.2)
        radiusCorners corners

/-- What becomes of properties whose corner radii are put together. -/
structure Consolidated (modern out : Properties) : Prop where
  removed : ¬ HasSource out
  others : besideRadii out = besideRadii modern
  scalar : ∀ v, Table.get? modern borderRadiusKey = some v → v.isScalar = true →
    Table.get? out borderRadiusKey = some v
  rounded : Rounds modern → ∃ entries, Table.get? out borderRadiusKey = some (.object entries)
    ∧ HasRadii modern (oldEntries modern) entries
  untouched : ¬ Rounds modern →
    Table.get? out borderRadiusKey = Table.get? modern borderRadiusKey
  order : borderRadiusKey ∈ Table.keys modern ∨ ¬ Rounds modern →
    Table.keys out
      = (Table.keys modern).filter fun key => !(radiusCorners.map (·.1)).contains key
  last : borderRadiusKey ∉ Table.keys modern → Rounds modern →
    Table.keys out
      = (Table.keys modern).filter (fun key => !(radiusCorners.map (·.1)).contains key)
        ++ [borderRadiusKey]

/-- Whether each corner of the object for corner radii has a radius, if there is such an object. -/
def HasCorners (ps : Properties) : Prop :=
  ∀ object, valueAt ps borderRadiusKey = .object object →
    ∀ corner ∈ radiusCorners, valueAt object corner.2 ≠ .empty

/-- Whether the object for corner radii counts as complete although a corner has no radius. -/
def LeavesCornerBare (modern : Properties) : Prop :=
  ¬ HasSource modern ∧ ∃ object, valueAt modern borderRadiusKey = .object object
    ∧ ¬ LacksCorner object ∧ ∃ corner ∈ radiusCorners, valueAt object corner.2 = .empty

variable {modern object : Properties} {r : Properties × List Note}

/-! ## What is done -/

/-- What putting corner radii together may do. -/
inductive Consolidates (modern : Properties) : Properties × List Note → Prop
  | silent (h : IsSettled modern) : Consolidates modern (modern, [])
  | kept (hs : HasSource modern) (hv : (valueAt modern borderRadiusKey).isScalar = true) :
    Consolidates modern (withoutCorners modern, [.radiusKept])
  | rounded (h : Rounds modern) :
    Consolidates modern (withCornerObject modern (oldEntries modern))

theorem isEmpty_cornerSources : (cornerSources modern).isEmpty = true ↔ ¬ HasSource modern := by
  simp only [cornerSources, HasSource, List.isEmpty_iff, List.filter_eq_nil_iff,
    List.forall_mem_map, Table.hasKey_iff, not_exists, not_and]

theorem all_hasKey : (radiusCorners.all fun corner => Table.hasKey object corner.2) = true
    ↔ ¬ LacksCorner object := by
  simp only [LacksCorner, List.all_eq_true, Table.hasKey_iff, not_exists, not_and,
    Decidable.not_not]

theorem consolidates (modern : Properties) : Consolidates modern (consolidate modern) := by
  unfold consolidate
  dsimp only
  split
  · next hv =>
    have hold : oldEntries modern = [] := by rw [oldEntries, hv]
    split
    · next hs =>
      rw [isEmpty_cornerSources] at hs
      exact .silent ⟨hs, by simp [Rounds, hv, hs]⟩
    · next hs =>
      rw [isEmpty_cornerSources, Classical.not_not] at hs
      exact hold ▸ .rounded (.inl ⟨hv, hs⟩)
  · next object hv =>
    have hold : oldEntries modern = object := by rw [oldEntries, hv]
    split
    · next h =>
      rw [isEmpty_cornerSources, all_hasKey] at h
      exact .silent ⟨h.1, by simp [Rounds, hv, h.1, h.2]⟩
    · next h =>
      rw [isEmpty_cornerSources, all_hasKey, ← not_or, Classical.not_not] at h
      exact hold ▸ .rounded (.inr ⟨object, hv, h⟩)
  · next hempty hobject =>
    have hv : (valueAt modern borderRadiusKey).isScalar = true := by
      cases h : valueAt modern borderRadiusKey with
      | empty => exact absurd h hempty
      | object entries => exact absurd h (hobject entries)
      | _ => rfl
    split
    · next hs =>
      rw [isEmpty_cornerSources] at hs
      refine .silent ⟨hs, ?_⟩
      rintro (⟨h, -⟩ | ⟨object, h, -⟩)
      · exact hempty h
      · exact hobject object h
    · next hs =>
      rw [isEmpty_cornerSources, Classical.not_not] at hs
      exact .kept hs hv

/-! ## What is left alone -/

theorem consolidate_of_isSettled (h : IsSettled modern) : consolidate modern = (modern, []) := by
  have hc := consolidates modern
  generalize consolidate modern = r at hc
  cases hc with
  | silent => rfl
  | kept hs => exact absurd hs h.1
  | rounded hr => exact absurd hr h.2

theorem not_rounds_of_isScalar (h : (valueAt modern borderRadiusKey).isScalar = true) :
    ¬ Rounds modern := by
  rintro (⟨hv, -⟩ | ⟨object, hv, -⟩)
  · rw [hv] at h
    cases h
  · rw [hv] at h
    cases h

/-! ## Without the properties for single corners -/

theorem keys_withoutCorners (modern : Properties) : Table.keys (withoutCorners modern)
    = (Table.keys modern).filter fun key => !(radiusCorners.map (·.1)).contains key :=
  Table.keys_filter (fun key => !(radiusCorners.map Prod.fst).contains key) modern

theorem not_hasSource_of_keys {out : Properties}
    (h : ∀ key ∈ Table.keys out, key ∈ Table.keys (withoutCorners modern) ∨ key = borderRadiusKey) :
    ¬ HasSource out := by
  rintro ⟨corner, hc, hm⟩
  have hcorner : corner.1 ∈ radiusCorners.map (·.1) := List.mem_map_of_mem hc
  rcases h _ hm with hm | he
  · rw [keys_withoutCorners, List.mem_filter] at hm
    simp [hcorner] at hm
  · have hapart : borderRadiusKey ∉ radiusCorners.map (·.1) := by decide
    exact hapart (he ▸ hcorner)

theorem get?_withoutCorners (modern : Properties) :
    Table.get? (withoutCorners modern) borderRadiusKey = Table.get? modern borderRadiusKey := by
  have hapart : (!(radiusCorners.map Prod.fst).contains borderRadiusKey) = true := by decide
  exact Table.get?_filter (p := fun key => !(radiusCorners.map Prod.fst).contains key) hapart modern

/-! ## The object -/

theorem cornerRadius_cornerValue (modern object : Properties) (corner : Text × Text) :
    CornerRadius modern object corner (cornerValue modern object corner).2 := by
  unfold cornerValue
  dsimp only
  split
  · next ho hs => exact .zero ho hs
  · next ho hs => exact .ofSource ho hs
  · next ho _ => exact .ofObject ho

theorem hasRadii_cornerEntries (modern object : Properties) :
    HasRadii modern object (cornerEntries modern object) := by
  refine ⟨radiusCorners.map (cornerValue modern object), rfl, ?_⟩
  rw [List.forall₂_map_right_iff, List.forall₂_same]
  exact fun corner _ => ⟨rfl, cornerRadius_cornerValue modern object corner⟩

theorem CornerRadius.ne_empty {corner : Text × Text} {v : Property}
    (h : CornerRadius modern object corner v) : v ≠ .empty := by
  cases h with
  | ofObject ho => exact ho
  | ofSource _ hs => exact hs
  | zero => exact fun h => nomatch h

/-- What was put under distinct keys one after the other is found there. -/
theorem exists_get?_of_forall₂ {R : Text × Text → Property → Prop} {sources : List (Text × Text)}
    {entries : Properties} (h : List.Forall₂ (fun s e => e.1 = s.2 ∧ R s e.2) sources entries)
    (hn : (sources.map (·.2)).Nodup) (more : Properties) {source : Text × Text}
    (hs : source ∈ sources) :
    ∃ v, Table.get? (entries ++ more) source.2 = some v ∧ R source v := by
  induction h with
  | nil => cases hs
  | @cons first entry rest others hfirst _ ih =>
    obtain ⟨key, v⟩ := entry
    obtain ⟨rfl, hr⟩ := hfirst
    obtain ⟨hnew, hn⟩ := List.nodup_cons.1 hn
    rw [List.cons_append, Table.get?]
    rcases List.mem_cons.1 hs with rfl | hs
    · exact ⟨v, if_pos rfl, hr⟩
    · have hne : first.2 ≠ source.2 := fun he => hnew (List.mem_map.2 ⟨source, hs, he.symm⟩)
      rw [if_neg hne]
      exact ih hn hs

theorem HasRadii.exists_get? {entries : Properties} (h : HasRadii modern object entries)
    {corner : Text × Text} (hc : corner ∈ radiusCorners) :
    ∃ v, Table.get? entries corner.2 = some v ∧ v ≠ .empty := by
  obtain ⟨corners, rfl, hall⟩ := h
  obtain ⟨v, hv, hr⟩ := exists_get?_of_forall₂ hall (by decide) _ hc
  exact ⟨v, hv, hr.ne_empty⟩

theorem HasRadii.not_lacksCorner {entries : Properties} (h : HasRadii modern object entries) :
    ¬ LacksCorner entries := by
  rintro ⟨corner, hc, hm⟩
  obtain ⟨v, hv, -⟩ := h.exists_get? hc
  rw [Table.get?_eq_none_iff.2 hm] at hv
  cases hv

theorem valueAt_withCornerObject (modern object : Properties) :
    valueAt (withCornerObject modern object).1 borderRadiusKey
      = .object (cornerEntries modern object) := valueAt_insert_self _ _ _

/-! ## What comes out -/

theorem not_hasSource_withCornerObject (modern object : Properties) :
    ¬ HasSource (withCornerObject modern object).1 :=
  not_hasSource_of_keys fun _ hm => Table.mem_keys_insert.1 hm

theorem not_hasSource_withoutCorners (modern : Properties) : ¬ HasSource (withoutCorners modern) :=
  not_hasSource_of_keys fun _ hm => .inl hm

theorem isSettled_consolidate (modern : Properties) : IsSettled (consolidate modern).1 := by
  have hc := consolidates modern
  generalize consolidate modern = r at hc
  cases hc with
  | silent h => exact h
  | kept _ hv =>
    refine ⟨not_hasSource_withoutCorners modern, not_rounds_of_isScalar ?_⟩
    rwa [valueAt, get?_withoutCorners]
  | rounded =>
    have hnone := not_hasSource_withCornerObject modern (oldEntries modern)
    refine ⟨hnone, ?_⟩
    rintro (⟨-, hs⟩ | ⟨object, hv, hs | hlacks⟩)
    · exact hnone hs
    · exact hnone hs
    · rw [valueAt_withCornerObject] at hv
      obtain rfl := Property.object.inj hv
      exact (hasRadii_cornerEntries modern _).not_lacksCorner hlacks

theorem Consolidated.of_isSettled (h : IsSettled modern) : Consolidated modern modern where
  removed := h.1
  others := rfl
  scalar _ hv _ := hv
  rounded hr := absurd hr h.2
  untouched _ := rfl
  order _ := by
    refine (List.filter_eq_self.2 fun key hm => ?_).symm
    rw [Bool.not_eq_true', List.contains_eq_mem, decide_eq_false_iff_not]
    intro hkey
    obtain ⟨corner, hc, rfl⟩ := List.mem_map.1 hkey
    exact h.1 ⟨corner, hc, hm⟩
  last _ hr := absurd hr h.2

theorem consolidated_withoutCorners (hv : (valueAt modern borderRadiusKey).isScalar = true) :
    Consolidated modern (withoutCorners modern) where
  removed := not_hasSource_withoutCorners modern
  others := besideRadii_withoutCorners modern
  scalar _ h _ := (get?_withoutCorners modern).trans h
  rounded hr := absurd hr (not_rounds_of_isScalar hv)
  untouched _ := get?_withoutCorners modern
  order _ := keys_withoutCorners modern
  last _ hr := absurd hr (not_rounds_of_isScalar hv)

theorem consolidated_withCornerObject (h : Rounds modern) :
    Consolidated modern (withCornerObject modern (oldEntries modern)).1 where
  removed := not_hasSource_withCornerObject modern _
  others := (besideRadii_insert List.mem_cons_self _ _).trans (besideRadii_withoutCorners modern)
  scalar v hv hs := by
    have hvalue : valueAt modern borderRadiusKey = v := by rw [valueAt, hv]; rfl
    exact absurd h (not_rounds_of_isScalar (hvalue ▸ hs))
  rounded _ := ⟨_, Table.get?_insert_self _ _ _, hasRadii_cornerEntries modern _⟩
  untouched hr := absurd h hr
  order hor := by
    have hm : borderRadiusKey ∈ Table.keys modern := hor.resolve_right fun hr => hr h
    rw [← keys_withoutCorners]
    refine Table.keys_insert_of_mem _ _ ?_
    rwa [← Table.get?_isSome_iff, get?_withoutCorners, Table.get?_isSome_iff]
  last hm _ := by
    rw [← keys_withoutCorners]
    refine Table.keys_insert_of_not_mem _ _ ?_
    rwa [← Table.get?_eq_none_iff, get?_withoutCorners, Table.get?_eq_none_iff]

theorem consolidated (modern : Properties) : Consolidated modern (consolidate modern).1 := by
  have hc := consolidates modern
  generalize consolidate modern = r at hc
  cases hc with
  | silent h => exact .of_isSettled h
  | kept _ hv => exact consolidated_withoutCorners hv
  | rounded h => exact consolidated_withCornerObject h

/-- Corner radii are put together with all that stands beside them kept, and a second time nothing
is left to do and nothing is noted. -/
theorem consolidated_consolidate (modern : Properties) :
    Consolidated modern (consolidate modern).1
      ∧ consolidate (consolidate modern).1 = ((consolidate modern).1, []) :=
  ⟨consolidated modern, consolidate_of_isSettled (isSettled_consolidate modern)⟩

/-! ## Corners without a radius -/

theorem hasCorners_consolidate_iff (modern : Properties) :
    HasCorners (consolidate modern).1 ↔ ¬ LeavesCornerBare modern := by
  have hc := consolidates modern
  generalize consolidate modern = r at hc
  cases hc with
  | silent h =>
    constructor
    · rintro hall ⟨-, object, hv, -, corner, hcorner, hbare⟩
      exact hall object hv corner hcorner hbare
    · intro hbare object hv corner hcorner hempty
      have hlacks : ¬ LacksCorner object := fun hl => h.2 (.inr ⟨object, hv, .inr hl⟩)
      exact hbare ⟨h.1, object, hv, hlacks, corner, hcorner, hempty⟩
  | kept hs hv =>
    refine iff_of_true (fun object ho => ?_) fun hbare => hbare.1 hs
    rw [valueAt, get?_withoutCorners, ← valueAt] at ho
    rw [ho] at hv
    cases hv
  | rounded h =>
    refine iff_of_true (fun object hv corner hcorner => ?_) ?_
    · rw [valueAt_withCornerObject] at hv
      obtain rfl := Property.object.inj hv
      obtain ⟨v, hg, hne⟩ := (hasRadii_cornerEntries modern _).exists_get? hcorner
      rwa [valueAt, hg]
    · rintro ⟨hnone, object, hv, hlacks, -⟩
      rcases h with ⟨-, hs⟩ | ⟨object', hv', hs | hl⟩
      · exact hnone hs
      · exact hnone hs
      · obtain rfl := Property.object.inj (hv.symm.trans hv')
        exact hlacks hl

/-- A property that has nothing to do with corner radii makes no difference to them. -/
theorem leavesCornerBare_ensure {key : Text} (hk : key ∉ radiusKeys) (value : Text) :
    LeavesCornerBare (ensure key value modern).1 ↔ LeavesCornerBare modern := by
  unfold ensure
  split
  · rfl
  · have hradius : borderRadiusKey ≠ key := fun he => hk (he ▸ List.mem_cons_self)
    have hsource : HasSource (Table.insert modern key (ofText value)) ↔ HasSource modern := by
      refine exists_congr fun corner => and_congr_right fun hc => ?_
      have hne : corner.1 ≠ key := fun he =>
        hk (he ▸ List.mem_cons_of_mem _ (List.mem_map_of_mem hc))
      rw [Table.mem_keys_insert, or_iff_left hne]
    unfold LeavesCornerBare
    rw [hsource, valueAt, Table.get?_insert_of_ne modern _ hradius, ← valueAt]

/-- After the rule for buttons every corner of an object for corner radii has a radius, unless the
object had all corners, one of them without a value, and there was no property for a single
corner. -/
theorem hasCorners_button_iff (classic modern : Properties) :
    HasCorners (button.apply classic modern).1 ↔ ¬ LeavesCornerBare modern :=
  (hasCorners_consolidate_iff _).trans
    (not_congr (leavesCornerBare_ensure (by decide) "Standard".toList))

/-- Corner radii of which one has no value. -/
def bareRadii : Properties :=
  [("TopLeft".toList, .empty), ("TopRight".toList, .int 4), ("BottomLeft".toList, .int 4),
    ("BottomRight".toList, .int 4)]

/-- A button with these corner radii and no property for a single corner. -/
def bareButton : Properties := [(borderRadiusKey, .object bareRadii)]

/-- Such a button keeps its corner radii, and one corner stays without. -/
theorem not_hasCorners_bareButton : (∀ e ∈ bareButton, e.2 ≠ .empty)
    ∧ ¬ HasCorners (button.apply [] bareButton).1 := by
  refine ⟨by decide +kernel, fun h => ?_⟩
  have hkept : valueAt (button.apply [] bareButton).1 borderRadiusKey = .object bareRadii := by
    decide +kernel
  exact h bareRadii hkept ("RadiusTopLeft".toList, "TopLeft".toList) List.mem_cons_self rfl

end Rule

end ModernControls
