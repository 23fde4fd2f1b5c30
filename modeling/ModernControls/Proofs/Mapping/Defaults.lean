import ModernControls.Mapping.Properties
import ModernControls.Proofs.Control.ShortIntegers
import ModernControls.Proofs.Outcomes
import ModernControls.Proofs.Tables

/-!
# Default properties

Defaults are put behind what is there, each that is added with a note that names its value. The
value is written in the note, so with an integer of too many digits among the defaults that are
added there is no result. This is the only way in which adding defaults fails, where all of them are
property values.

**Added defaults (`AddedDefault`).** A default with the value and the text that were made of it.

**Missing defaults (`MissingAreShort`).** Those whose keys no property has yet hold no long integer.

Results:
- `ofJson_ok_iff`: a default is a property value under the keys that it has;
- `exists_of_addDefaults`: what adding defaults comes to;
- `addDefaults_cases`: when defaults are added, and what is said if they are not.
-/
namespace ModernControls

/-! ## Defaults as values -/

namespace Property

mutual

theorem named_keyed : ∀ v : Property, v.keyed.named = v
  | .empty | .formula _ | .bool _ | .int _ | .float _ | .string .. => rfl
  | .object entries => congrArg Property.object (mapEntryKeys_keyed entries)

theorem mapEntryKeys_keyed : ∀ entries : List (Text × Property),
    mapEntryKeys Yaml.Tree.keyText (mapEntryKeys PropertyKey.plain entries) = entries
  | [] => rfl
  | (key, value) :: rest =>
    congrArg₂ (fun v more => (key, v) :: more) (named_keyed value) (mapEntryKeys_keyed rest)

end

theorem ofPlainText_keyed (text : Text) (form : Yaml.TextForm) :
    (ofPlainText text form).named.keyed = ofPlainText text form := by
  rw [ofPlainText]
  split
  · split <;> rfl
  · rfl

mutual

/-- The keys of JSON are texts, so none is lost where they become such. -/
theorem keyed_named_of_ofEntry : ∀ (data : Json) {v : Property PlainValue},
    ofEntry data.toPlain = .ok v → v.named.keyed = v
  | .null, _, h => Except.ok.inj h ▸ rfl
  | .bool _, _, h => Except.ok.inj h ▸ rfl
  | .int _, _, h => Except.ok.inj h ▸ rfl
  | .float _, _, h => Except.ok.inj h ▸ rfl
  | .string t, _, h => Except.ok.inj h ▸ ofPlainText_keyed t .plain
  | .array _, _, h => nomatch h
  | .object fields, _, h => by
    obtain ⟨entries, he, rfl⟩ := exists_of_map h
    exact congrArg Property.object (keyed_named_of_ofEntries fields he)

theorem keyed_named_of_ofEntries : ∀ (fields : List (Text × Json))
    {entries : List (PlainValue × Property PlainValue)},
    ofEntries (Json.toPlainFields fields) = .ok entries →
      mapEntryKeys PropertyKey.plain (mapEntryKeys Yaml.Tree.keyText entries) = entries
  | [], _, h => Except.ok.inj h ▸ rfl
  | (key, value) :: rest, _, h => by
    obtain ⟨v, hv, h⟩ := exists_of_bind h
    obtain ⟨entries, he, h⟩ := exists_of_bind h
    obtain rfl := Except.ok.inj h
    exact congrArg₂ (fun w more => (Yaml.Tree.text key .plain, w) :: more)
      (keyed_named_of_ofEntry value hv) (keyed_named_of_ofEntries rest he)

end

theorem ofEntry_of_ofPlain {x : PlainValue} {v : Property PlainValue} (h : ofPlain x = .ok v) :
    ofEntry x = .ok v := by
  rw [ofPlain.eq_def] at h
  split at h
  · cases h
  · exact h

/-- A default is a property value under the keys that it has. -/
theorem ofJson_ok_iff {data : Json} {v : Property} :
    ofJson data = .ok v ↔ ofPlain data.toPlain = .ok v.keyed := by
  rw [ofJson]
  constructor
  · intro h
    obtain ⟨p, hp, rfl⟩ := exists_of_map h
    rw [keyed_named_of_ofEntry data (ofEntry_of_ofPlain hp), hp]
  · intro h
    rw [h]
    exact congrArg Except.ok (named_keyed v)

theorem hasShortIntegers_ofPlainText (text : Text) (form : Yaml.TextForm) :
    (ofPlainText text form).HasShortIntegers := by
  rw [ofPlainText]
  split
  · split <;> trivial
  · trivial

mutual

theorem hasShortIntegers_ofEntry : ∀ (data : Json) {v : Property PlainValue},
    ofEntry data.toPlain = .ok v → (v.HasShortIntegers ↔ data.isShort = true)
  | .null, _, h => Except.ok.inj h ▸ ⟨fun _ => rfl, fun _ => trivial⟩
  | .bool _, _, h => Except.ok.inj h ▸ ⟨fun _ => rfl, fun _ => trivial⟩
  | .int n, _, h => Except.ok.inj h ▸ (Bool.not_eq_true' (isLongInteger n)).symm.to_iff
  | .float _, _, h => Except.ok.inj h ▸ ⟨fun _ => rfl, fun _ => trivial⟩
  | .string t, _, h =>
    Except.ok.inj h ▸ ⟨fun _ => rfl, fun _ => hasShortIntegers_ofPlainText t .plain⟩
  | .array _, _, h => nomatch h
  | .object fields, _, h => by
    obtain ⟨entries, he, rfl⟩ := exists_of_map h
    exact hasShortIntegers_ofEntries fields he

theorem hasShortIntegers_ofEntries : ∀ (fields : List (Text × Json))
    {entries : List (PlainValue × Property PlainValue)},
    ofEntries (Json.toPlainFields fields) = .ok entries →
      (HasShortIntegersEntries entries ↔ Json.areShortFields fields = true)
  | [], _, h => Except.ok.inj h ▸ ⟨fun _ => rfl, fun _ => trivial⟩
  | (key, value) :: rest, _, h => by
    obtain ⟨v, hv, h⟩ := exists_of_bind h
    obtain ⟨entries, he, h⟩ := exists_of_bind h
    obtain rfl := Except.ok.inj h
    rw [HasShortIntegersEntries, Json.areShortFields, Bool.and_eq_true]
    exact and_congr (hasShortIntegers_ofEntry value hv) (hasShortIntegers_ofEntries rest he)

end

/-- The integers of a default are those of its value. -/
theorem hasShortIntegers_ofJson {data : Json} {v : Property} (h : ofJson data = .ok v) :
    v.HasShortIntegers ↔ data.isShort = true := by
  obtain ⟨p, hp, rfl⟩ := exists_of_map h
  exact (hasShortIntegers_mapKeys _ p).trans
    (hasShortIntegers_ofEntry data (ofEntry_of_ofPlain hp))

end Property

namespace Mapping

open ModernControls.Properties

variable {done : Properties} {r : Properties × List Note} {defaults : List (Text × Json)}
  {m : Mapping}

/-- A default with the value that it is and the text of that in its note. -/
structure AddedDefault where
  key : Text
  given : Json
  value : Property
  text : Text
  is_value : Property.ofJson given = .ok value
  is_text : value.asText = some text

/-- The property that is added. -/
def AddedDefault.entry (d : AddedDefault) : Text × Property := (d.key, d.value)

/-- The note that it is added. -/
def AddedDefault.note (d : AddedDefault) : Note := .defaulted d.key d.text

theorem exists_of_defaultValue {key : Text} {given : Json} {added : Property × Note}
    (h : defaultValue key given = .ok added) :
    ∃ d : AddedDefault, d.key = key ∧ d.given = given ∧ added = (d.value, d.note) := by
  unfold defaultValue at h
  split at h
  · cases h
  · next value hvalue =>
    split at h
    · next text htext =>
      exact ⟨⟨key, given, value, text, hvalue, htext⟩, rfl, rfl, (Except.ok.inj h).symm⟩
    · cases h

/-- What adding defaults comes to: some of them stand behind what was there, each with its note, and
no key of theirs is missing. -/
theorem exists_of_addDefaults (h : addDefaults done defaults = .ok r) :
    ∃ added : List AddedDefault,
      r = (done ++ added.map AddedDefault.entry, added.map AddedDefault.note)
        ∧ (∀ d ∈ added, (d.key, d.given) ∈ defaults)
        ∧ ∀ key ∈ Table.keys defaults, key ∈ Table.keys r.1 := by
  induction defaults generalizing done r with
  | nil =>
    obtain rfl := Except.ok.inj h
    exact ⟨[], by simp, by simp, fun key hk => nomatch hk⟩
  | cons entry rest ih =>
    obtain ⟨key, given⟩ := entry
    rw [addDefaults] at h
    split at h
    · next hkey =>
      obtain ⟨added, rfl, hgiven, hkeys⟩ := ih h
      refine ⟨added, rfl, fun d hd => List.mem_cons_of_mem _ (hgiven d hd), ?_⟩
      refine List.forall_mem_cons.2 ⟨?_, hkeys⟩
      simp only [Table.keys, List.map_append, List.mem_append]
      exact .inl (Table.hasKey_iff.1 hkey)
    · next hkey =>
      obtain ⟨added, hadded, h⟩ := exists_of_bind h
      obtain ⟨first, rfl, rfl, rfl⟩ := exists_of_defaultValue hadded
      obtain ⟨others, hothers, h⟩ := exists_of_bind h
      obtain rfl := Except.ok.inj h
      obtain ⟨more, rfl, hgiven, hkeys⟩ := ih hothers
      have hnot : first.key ∉ Table.keys done := fun hm => hkey (Table.hasKey_iff.2 hm)
      rw [Table.insert_of_not_mem hnot] at hkeys ⊢
      refine ⟨first :: more, by simp [AddedDefault.entry], ?_, ?_⟩
      · exact List.forall_mem_cons.2
          ⟨List.mem_cons_self, fun d hd => List.mem_cons_of_mem _ (hgiven d hd)⟩
      · refine List.forall_mem_cons.2 ⟨?_, hkeys⟩
        simp [Table.keys]

/-- Defaults come after what is there. -/
theorem prefix_addDefaults (h : addDefaults done defaults = .ok r) : done <+: r.1 := by
  obtain ⟨added, rfl, -⟩ := exists_of_addDefaults h
  exact List.prefix_append _ _

/-- Every default is there in the end. -/
theorem mem_keys_addDefaults (h : addDefaults done defaults = .ok r) {key : Text}
    (hk : key ∈ Table.keys defaults) : key ∈ Table.keys r.1 := by
  obtain ⟨added, -, -, hkeys⟩ := exists_of_addDefaults h
  exact hkeys key hk

/-- What is noted of defaults is that they are added. -/
theorem exists_of_mem_addDefaults (h : addDefaults done defaults = .ok r) {n : Note}
    (hn : n ∈ r.2) : ∃ d : AddedDefault, n = d.note := by
  obtain ⟨added, rfl, -⟩ := exists_of_addDefaults h
  obtain ⟨d, -, rfl⟩ := List.mem_map.1 hn
  exact ⟨d, rfl⟩

/-! ## When defaults are added -/

theorem defaultValue_cases {given : Json} (h : ∃ value, Property.ofPlain given.toPlain = .ok value)
    (key : Text) : (given.isShort = true ∧ ∃ added, defaultValue key given = .ok added)
      ∨ (given.isShort ≠ true ∧ defaultValue key given = .error (.broken .longInteger)) := by
  obtain ⟨value, hvalue⟩ := h
  have hjson : Property.ofJson given = .ok value.named := by rw [Property.ofJson, hvalue]; rfl
  have hshort := (Property.exists_asText_iff value.named).trans
    (Property.hasShortIntegers_ofJson hjson)
  cases htext : value.named.asText with
  | some text =>
    refine .inl ⟨hshort.1 ⟨text, htext⟩, (value.named, .defaulted key text), ?_⟩
    simp only [defaultValue, hjson, htext]
  | none =>
    refine .inr ⟨fun hs => ?_, by simp only [defaultValue, hjson, htext]⟩
    obtain ⟨text, h⟩ := hshort.2 hs
    rw [htext] at h
    cases h

/-- Whether none of the defaults whose keys are missing holds a long integer. -/
def MissingAreShort (done : Properties) (defaults : Table Json) : Prop :=
  ∀ key given, Table.get? defaults key = some given → key ∉ Table.keys done → given.isShort = true

theorem missingAreShort_nil (done : Properties) : MissingAreShort done [] := fun _ _ h => nomatch h

theorem missingAreShort_cons_of_mem {key : Text} (hkey : key ∈ Table.keys done) (given : Json)
    (rest : Table Json) :
    MissingAreShort done ((key, given) :: rest) ↔ MissingAreShort done rest := by
  refine forall₂_congr fun k g => ?_
  by_cases hk : key = k
  · subst hk
    exact ⟨fun _ _ hn => absurd hkey hn, fun _ _ hn => absurd hkey hn⟩
  · rw [Table.get?, if_neg hk]

theorem missingAreShort_cons {key : Text} (hkey : key ∉ Table.keys done) (given : Json)
    (rest : Table Json) (value : Property) :
    MissingAreShort done ((key, given) :: rest)
      ↔ given.isShort = true ∧ MissingAreShort (Table.insert done key value) rest := by
  constructor
  · intro h
    refine ⟨h key given (by rw [Table.get?, if_pos rfl]) hkey, fun k g hg hn => ?_⟩
    rw [Table.mem_keys_insert, not_or] at hn
    refine h k g ?_ hn.1
    rw [Table.get?, if_neg (Ne.symm hn.2), hg]
  · rintro ⟨hfirst, hrest⟩ k g hg hn
    rw [Table.get?] at hg
    split at hg
    · exact Option.some.inj hg ▸ hfirst
    · next hk => exact hrest k g hg fun hm => (Table.mem_keys_insert.1 hm).elim hn (Ne.symm hk)

/-- Defaults that are property values are added, unless a long integer is among those that are
missing. -/
theorem addDefaults_cases
    (h : ∀ entry ∈ defaults, ∃ value, Property.ofPlain entry.2.toPlain = .ok value)
    (done : Properties) :
    (MissingAreShort done defaults ∧ ∃ r, addDefaults done defaults = .ok r)
      ∨ (¬MissingAreShort done defaults
        ∧ addDefaults done defaults = .error (.broken .longInteger)) := by
  induction defaults generalizing done with
  | nil => exact .inl ⟨missingAreShort_nil done, _, rfl⟩
  | cons entry rest ih =>
    obtain ⟨key, given⟩ := entry
    obtain ⟨hfirst, hrest⟩ := List.forall_mem_cons.1 h
    rw [addDefaults]
    split
    · next hkey =>
      rw [missingAreShort_cons_of_mem (Table.hasKey_iff.1 hkey)]
      exact ih hrest done
    · next hkey =>
      have hnot : key ∉ Table.keys done := fun hm => hkey (Table.hasKey_iff.2 hm)
      rcases defaultValue_cases hfirst key with ⟨hshort, ⟨value, note⟩, hadded⟩ | ⟨hlong, herror⟩
      · rw [missingAreShort_cons hnot given rest value, and_iff_right hshort]
        rcases ih hrest (Table.insert done key value) with ⟨hmore, r, hr⟩ | ⟨hmore, hr⟩
        · refine .inl ⟨hmore, (r.1, note :: r.2), ?_⟩
          simp only [hadded, hr, bind, Except.bind]
        · refine .inr ⟨hmore, ?_⟩
          simp only [hadded, hr, bind, Except.bind]
      · refine .inr ⟨fun hs => hlong ?_, ?_⟩
        · exact hs key given (by rw [Table.get?, if_pos rfl]) hnot
        · simp only [herror, bind, Except.bind]

end Mapping

end ModernControls
