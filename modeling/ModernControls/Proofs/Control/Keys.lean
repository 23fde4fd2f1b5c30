import ModernControls.Control.Writing
import ModernControls.Proofs.Control.WellFormed

/-!
# Keys of a control

The keys that a control is written with are those recorded when it was read, in their order. Only
the key of the properties may be a new one, and then it comes behind all others.

**Recorded keys (`Control.IsRecorded`).** The key of the type is recorded, and besides the keys of
the control itself those of its further parts are and no others. This does not depend on what the
type and the properties are.

Results:
- `nodeKeys_of_isRecorded`: the keys that a control is written with;
- `nodup_nodeKeys`: none of them is repeated if none is that is recorded;
- `toTree_of_nodup`: what stands under them then.
-/
namespace ModernControls.Control

open Yaml

variable {c : Control}

/-- Whether the keys of a control are recorded. -/
structure IsRecorded (c : Control) : Prop where
  typed : typeKey ∈ c.keyOrder
  extras : ∀ k, k ∈ c.extras.keys ↔ k ∈ c.keyOrder ∧ isFurtherKey k = true

theorem WellFormed.isRecorded (h : c.WellFormed) : c.IsRecorded where
  typed := h.typed
  extras k := by rw [h.extras, List.mem_filter]

/-- Every recorded key is one that the control is written with. -/
theorem IsRecorded.present (h : c.IsRecorded) {k : Text} (hk : k ∈ c.keyOrder) :
    k ∈ c.presentKeys := by
  rw [presentKeys, List.cons_append, List.mem_cons, List.mem_append]
  by_cases hfurther : isFurtherKey k = true
  · exact .inr (.inl ((h.extras k).2 ⟨hk, hfurther⟩))
  · by_cases htype : k = typeKey
    · exact .inl htype
    · obtain rfl : k = propertiesKey := by simpa [isFurtherKey, htype] using hfurther
      simp [hk]

theorem foldl_withKey_of_subset {keys start : List Text} (h : ∀ k ∈ keys, k ∈ start) :
    keys.foldl withKey start = start := by
  induction keys with
  | nil => rfl
  | cons k rest ih =>
    obtain ⟨hk, hrest⟩ := List.forall_mem_cons.1 h
    rw [List.foldl_cons, withKey, if_pos (List.contains_iff_mem.2 hk), ih hrest]

/-- A control is written with its recorded keys, and with that of the properties behind them if it
is not among them and there are some. -/
theorem nodeKeys_of_isRecorded (h : c.IsRecorded) : c.nodeKeys = c.keyOrder
    ++ if propertiesKey ∉ c.keyOrder ∧ c.properties ≠ [] then [propertiesKey] else [] := by
  have hrecorded : c.keyOrder.filter c.presentKeys.contains = c.keyOrder :=
    List.filter_eq_self.2 fun k hk => List.contains_iff_mem.2 (h.present hk)
  have hknown : (typeKey :: c.extras.keys).foldl withKey c.keyOrder = c.keyOrder := by
    refine foldl_withKey_of_subset (List.forall_mem_cons.2 ⟨h.typed, fun k hk => ?_⟩)
    exact ((h.extras k).1 hk).1
  rw [nodeKeys, hrecorded, presentKeys, List.foldl_append, hknown]
  by_cases hplace : propertiesKey ∈ c.keyOrder
  · have hold : (if propertiesKey ∉ c.keyOrder ∧ c.properties ≠ [] then [propertiesKey] else [])
        = [] := if_neg fun hno => hno.1 hplace
    rw [hold, List.append_nil]
    refine foldl_withKey_of_subset fun k hk => ?_
    split at hk
    · exact List.mem_singleton.1 hk ▸ hplace
    · cases hk
  · by_cases hnone : c.properties = []
    · simp [hplace, hnone]
    · simp [hplace, hnone, withKey]

theorem nodup_nodeKeys (h : c.IsRecorded) (hn : c.keyOrder.Nodup) : c.nodeKeys.Nodup := by
  rw [nodeKeys_of_isRecorded h]
  split
  · next hadded =>
    rw [List.nodup_append]
    refine ⟨hn, by simp, fun k hk k' hk' he => hadded.1 ?_⟩
    exact List.mem_singleton.1 hk' ▸ he ▸ hk
  · rwa [List.append_nil]

/-- If no key is repeated, every part of a control is written under its key. -/
theorem toTree_of_nodup (hn : c.nodeKeys.Nodup) :
    c.toTree = .map (c.nodeKeys.map fun k => (.text k .plain, c.part k)) := by
  rw [toTree]
  dsimp only
  rw [Table.ofEntries_of_nodup (by simpa [Function.comp_def] using hn), List.map_map]
  rfl

end ModernControls.Control
