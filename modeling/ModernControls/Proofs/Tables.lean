import Mathlib.Data.List.Perm.Subperm
import ModernControls.Table
import ModernControls.Yaml.Tree

/-!
# Tables without repeated keys

A table made of a list of entries has every key once, and the list stays as it is if no key is
repeated in it. The same holds of maps of trees whose keys are texts.

Results:
- `nodup_ofEntries`, `ofEntries_of_nodup`, `ofEntries_of_length`: for tables;
- `eq_of_get?`: such tables are told apart by their keys and what they hold;
- `keys_insertAll`, `get?_insertAll`: what is there after the writes of such a table;
- `ofEntries_texts`: a map of trees whose keys are texts is such a table.
-/
namespace ModernControls

namespace Table

variable {α : Type}

theorem insert_of_not_mem {t : Table α} {k : Text} (h : k ∉ keys t) (v : α) :
    insert t k v = t ++ [(k, v)] := by
  induction t with
  | nil => rfl
  | cons e r ih =>
    obtain ⟨k', v'⟩ := e
    simp only [keys, List.map_cons, List.mem_cons, not_or] at h
    rw [insert, if_neg fun he => h.1 he.symm, ih h.2, List.cons_append]

theorem nodup_insert {t : Table α} (h : (keys t).Nodup) (k : Text) (v : α) :
    (keys (insert t k v)).Nodup := by
  by_cases hk : k ∈ keys t
  · rwa [keys_insert_of_mem t v hk]
  · rw [keys_insert_of_not_mem t v hk, List.nodup_append]
    exact ⟨h, by simp, fun a ha b hb he => hk (List.mem_singleton.1 hb ▸ he ▸ ha)⟩

/-- What is in a table after a write was in it or was written. -/
theorem of_mem_insert {t : Table α} {k : Text} {v : α} {e : Text × α} (h : e ∈ insert t k v) :
    e ∈ t ∨ e = (k, v) := by
  induction t with
  | nil => exact .inr (List.mem_singleton.1 h)
  | cons e' r ih =>
    obtain ⟨k', v'⟩ := e'
    rw [insert] at h
    split at h
    · rcases List.mem_cons.1 h with h | h
      · exact .inr h
      · exact .inl (List.mem_cons_of_mem _ h)
    · rcases List.mem_cons.1 h with h | h
      · exact .inl (h ▸ List.mem_cons_self)
      · exact (ih h).imp (List.mem_cons_of_mem _) id

theorem nodup_insertAll {t : Table α} (h : (keys t).Nodup) (es : List (Text × α)) :
    (keys (insertAll t es)).Nodup := by
  induction es generalizing t with
  | nil => exact h
  | cons e es ih => exact ih (nodup_insert h e.1 e.2)

theorem nodup_ofEntries (es : List (Text × α)) : (keys (ofEntries es)).Nodup :=
  nodup_insertAll (t := []) List.nodup_nil es

theorem of_mem_insertAll {t : Table α} {es : List (Text × α)} {e : Text × α}
    (h : e ∈ insertAll t es) : e ∈ t ∨ e ∈ es := by
  induction es generalizing t with
  | nil => exact .inl h
  | cons d es ih =>
    rcases ih h with h | h
    · rcases of_mem_insert h with h | rfl
      · exact .inl h
      · exact .inr List.mem_cons_self
    · exact .inr (List.mem_cons_of_mem _ h)

theorem of_mem_ofEntries {es : List (Text × α)} {e : Text × α} (h : e ∈ ofEntries es) : e ∈ es :=
  (of_mem_insertAll h).resolve_left List.not_mem_nil

theorem mem_keys_insert {t : Table α} {k k' : Text} {v : α} :
    k' ∈ keys (insert t k v) ↔ k' ∈ keys t ∨ k' = k := by
  by_cases hk : k ∈ keys t
  · rw [keys_insert_of_mem t v hk]
    exact ⟨.inl, fun h => h.elim id fun he => he ▸ hk⟩
  · rw [keys_insert_of_not_mem t v hk, List.mem_append, List.mem_singleton]

theorem mem_keys_insertAll {t : Table α} {es : List (Text × α)} {k : Text} :
    k ∈ keys (insertAll t es) ↔ k ∈ keys t ∨ k ∈ es.map (·.1) := by
  induction es generalizing t with
  | nil => simp [insertAll]
  | cons e rest ih =>
    have hstep : k ∈ keys (insertAll t (e :: rest)) ↔
        k ∈ keys (insertAll (insert t e.1 e.2) rest) := Iff.rfl
    rw [hstep, ih, mem_keys_insert, List.map_cons, List.mem_cons, or_assoc]

/-- A table of what belongs to each key holds that and nothing else. -/
theorem exists_ofEntries_map (f : Text → α) (ks : List Text) :
    ∃ ks' : List Text, ofEntries (ks.map fun k => (k, f k)) = ks'.map (fun k => (k, f k))
      ∧ ∀ k, k ∈ ks' ↔ k ∈ ks := by
  refine ⟨keys (ofEntries (ks.map fun k => (k, f k))), ?_, fun k => ?_⟩
  · rw [keys, List.map_map]
    refine (List.map_id _).symm.trans (List.map_congr_left fun e he => ?_)
    obtain ⟨k, -, rfl⟩ := List.mem_map.1 (of_mem_ofEntries he)
    rfl
  · rw [ofEntries, mem_keys_insertAll, List.map_map]
    simp [keys]

theorem insertAll_of_nodup {t : Table α} {es : List (Text × α)} (h : (keys (t ++ es)).Nodup) :
    insertAll t es = t ++ es := by
  induction es generalizing t with
  | nil => rw [List.append_nil]; rfl
  | cons e es ih =>
    obtain ⟨k, v⟩ := e
    have hk : k ∉ keys t := fun hm => by
      rw [keys, List.map_append, List.nodup_append] at h
      exact h.2.2 k hm k List.mem_cons_self rfl
    have happ : t ++ (k, v) :: es = (t ++ [(k, v)]) ++ es := by simp
    show insertAll (insert t k v) es = _
    rw [insert_of_not_mem hk, happ]
    exact ih (happ ▸ h)

theorem ofEntries_of_nodup {es : List (Text × α)} (h : (es.map (·.1)).Nodup) :
    ofEntries es = es :=
  insertAll_of_nodup (t := []) h

/-- A table that has as many keys as it was made of entries holds the entries as they are. -/
theorem ofEntries_of_length {es : List (Text × α)} (h : (ofEntries es).length = es.length) :
    ofEntries es = es := by
  have hsub : keys (ofEntries es) ⊆ es.map (·.1) := fun k hk =>
    (mem_keys_insertAll.1 hk).resolve_left List.not_mem_nil
  have hperm := (List.subperm_of_subset (nodup_ofEntries es) hsub).perm_of_length_le
    (by simp [keys, h])
  exact ofEntries_of_nodup (hperm.nodup_iff.1 (nodup_ofEntries es))

theorem mem_of_get? {t : Table α} {k : Text} {v : α} (h : get? t k = some v) : (k, v) ∈ t := by
  induction t with
  | nil => cases h
  | cons e r ih =>
    obtain ⟨k', v'⟩ := e
    rw [get?] at h
    split at h
    · next hk =>
      obtain rfl := Option.some.inj h
      exact hk ▸ List.mem_cons_self
    · exact List.mem_cons_of_mem _ (ih h)

/-- A key is there just if it is that of an entry. -/
theorem any_keys (t : Table α) (k : Text) : t.any (·.1 = k) = hasKey t k := by
  induction t with
  | nil => rfl
  | cons e r ih =>
    rw [List.any_cons, ih, hasKey, hasKey, get?]
    by_cases h : e.1 = k <;> simp [h]

/-- Entries without repeated keys are found under their keys. -/
theorem get?_of_mem {t : Table α} (h : (keys t).Nodup) {k : Text} {v : α} (hm : (k, v) ∈ t) :
    get? t k = some v := by
  induction t with
  | nil => cases hm
  | cons e r ih =>
    obtain ⟨k', v'⟩ := e
    rw [keys, List.map_cons, List.nodup_cons] at h
    rcases List.mem_cons.1 hm with he | hm
    · obtain ⟨rfl, rfl⟩ := Prod.mk.inj he
      rw [get?, if_pos rfl]
    · have hne : k' ≠ k := fun he => h.1 (he ▸ List.mem_map_of_mem (f := (·.1)) hm)
      rw [get?, if_neg hne]
      exact ih h.2 hm

/-- What is found in a table is found in one that goes on after it. -/
theorem get?_append {t : Table α} {k : Text} {v : α} (h : get? t k = some v) (more : Table α) :
    get? (t ++ more) k = some v := by
  induction t with
  | nil => cases h
  | cons e r ih =>
    obtain ⟨k', v'⟩ := e
    rw [List.cons_append, get?]
    rw [get?] at h
    split
    · next hk => rwa [if_pos hk] at h
    · next hk => exact ih (by rwa [if_neg hk] at h)

theorem hasKey_iff {t : Table α} {k : Text} : hasKey t k = true ↔ k ∈ keys t := get?_isSome_iff t k

theorem get?_filter {p : Text → Bool} {key : Text} (h : p key = true) (t : Table α) :
    get? (t.filter fun e => p e.1) key = get? t key := by
  induction t with
  | nil => rfl
  | cons e rest ih =>
    obtain ⟨k, v⟩ := e
    rw [List.filter_cons, get?]
    by_cases hk : k = key
    · subst hk
      rw [if_pos h, get?, if_pos rfl, if_pos rfl]
    · rw [if_neg hk]
      split
      · rw [get?, if_neg hk, ih]
      · exact ih

theorem keys_filter (p : Text → Bool) (t : Table α) :
    keys (t.filter fun e => p e.1) = (keys t).filter p := by
  rw [keys, keys, List.filter_map]
  rfl

/-- A key that comes in no entry is not found. -/
theorem get?_eq_none_iff {t : Table α} {k : Text} : get? t k = none ↔ k ∉ keys t := by
  rw [← get?_isSome_iff, Option.not_isSome_iff_eq_none]

/-- Two tables with every key once are the same if they have the same keys in the same order and
hold the same. -/
theorem eq_of_get? {t u : Table α} (hn : (keys t).Nodup) (hk : keys t = keys u)
    (hg : ∀ k, get? t k = get? u k) : t = u := by
  induction t generalizing u with
  | nil => exact (List.map_eq_nil_iff.1 hk.symm).symm
  | cons e t ih =>
    obtain ⟨k, v⟩ := e
    obtain ⟨⟨k', v'⟩, u, rfl, hkey, hrest⟩ := List.map_eq_cons_iff.1 hk.symm
    obtain rfl : k' = k := hkey
    obtain ⟨hnew, hn⟩ := List.nodup_cons.1 hn
    have hv := hg k'
    rw [get?, if_pos rfl, get?, if_pos rfl] at hv
    obtain rfl := Option.some.inj hv
    rw [ih hn hrest.symm fun key => ?_]
    by_cases he : k' = key
    · subst he
      have hnew' : k' ∉ keys u := fun hm => hnew (hrest ▸ hm)
      rw [get?_eq_none_iff.2 hnew, get?_eq_none_iff.2 hnew']
    · have hg := hg key
      rwa [get?, if_neg he, get?, if_neg he] at hg

theorem keys_insertAll {t u : Table α} (hn : (keys u).Nodup) :
    keys (insertAll t u) = keys t ++ (keys u).filter fun k => !(keys t).contains k := by
  induction u generalizing t with
  | nil => exact (List.append_nil _).symm
  | cons e u ih =>
    obtain ⟨k, v⟩ := e
    obtain ⟨hnew, hn⟩ := List.nodup_cons.1 hn
    have hstep : keys (insertAll t ((k, v) :: u)) = keys (insert t k v)
        ++ (keys u).filter fun key => !(keys (insert t k v)).contains key := ih hn
    have hcons : keys ((k, v) :: u) = k :: keys u := rfl
    rw [hstep, hcons]
    by_cases hk : k ∈ keys t
    · rw [keys_insert_of_mem t v hk, List.filter_cons_of_neg (by simpa using hk)]
    · have hothers : ((keys u).filter fun key => !(keys t ++ [k]).contains key)
          = (keys u).filter fun key => !(keys t).contains key :=
        List.filter_congr fun key hm => by
          have hne : key ≠ k := fun he => hnew (he ▸ hm)
          simp [hne]
      rw [keys_insert_of_not_mem t v hk, List.filter_cons_of_pos (by simpa using hk), hothers,
        List.append_assoc, List.singleton_append]

theorem get?_insertAll {t u : Table α} (hn : (keys u).Nodup) (k : Text) :
    get? (insertAll t u) k = (get? u k).or (get? t k) := by
  induction u generalizing t with
  | nil => rfl
  | cons e u ih =>
    obtain ⟨k', v⟩ := e
    obtain ⟨hnew, hn⟩ := List.nodup_cons.1 hn
    have hstep : get? (insertAll t ((k', v) :: u)) k = (get? u k).or (get? (insert t k' v) k) :=
      ih hn
    rw [hstep, get?]
    by_cases hk : k' = k
    · subst hk
      rw [get?_eq_none_iff.2 hnew, get?_insert_self, if_pos rfl]
      rfl
    · rw [get?_insert_of_ne t v (Ne.symm hk), if_neg hk]

theorem get?_map (f : Text → α → α) (t : Table α) (k : Text) :
    get? (t.map fun e => (e.1, f e.1 e.2)) k = (get? t k).map (f k) := by
  induction t with
  | nil => rfl
  | cons e t ih =>
    rw [List.map_cons, get?, get?, ih]
    split
    · next hk => rw [hk]; rfl
    · rfl

end Table

namespace Yaml.Tree

variable {α : Type}

/-- Entries whose keys are texts. -/
def ofTexts (es : List (Text × Yaml.Tree α)) : List (Yaml.Tree α × Yaml.Tree α) :=
  es.map fun e => (.text e.1 .plain, e.2)

/-- A map whose keys are texts is a table. -/
theorem insertEntry_texts (t : Table (Yaml.Tree α)) (k : Text) (v : Yaml.Tree α) :
    insertEntry sameKey (ofTexts t) (.text k .plain) v = ofTexts (Table.insert t k v) := by
  induction t with
  | nil => rfl
  | cons e r ih =>
    obtain ⟨k', v'⟩ := e
    by_cases h : k' = k
    · subst h
      simp [ofTexts, insertEntry, sameKey, Table.insert]
    · have : insertEntry sameKey (ofTexts r) (.text k .plain) v = ofTexts (Table.insert r k v) := ih
      simp only [ofTexts] at this
      simp [ofTexts, insertEntry, sameKey, Table.insert, h, this]

section Entries

variable {same : Yaml.Tree α → Yaml.Tree α → Bool} {P Q : Yaml.Tree α → Prop}

/-- What is true of the keys and values of entries and of one more. -/
theorem forall_insertEntry {entries : List (Yaml.Tree α × Yaml.Tree α)} {key value : Yaml.Tree α}
    (hs : ∀ e ∈ entries, P e.1 ∧ Q e.2) (hk : P key) (hv : Q value) :
    ∀ e ∈ insertEntry same entries key value, P e.1 ∧ Q e.2 := by
  induction entries with
  | nil => exact List.forall_mem_singleton.2 ⟨hk, hv⟩
  | cons entry rest ih =>
    obtain ⟨hfirst, hrest⟩ := List.forall_mem_cons.1 hs
    rw [insertEntry.eq_def]
    dsimp only
    split
    · exact List.forall_mem_cons.2 ⟨⟨hfirst.1, hv⟩, hrest⟩
    · exact List.forall_mem_cons.2 ⟨hfirst, ih hrest⟩

theorem forall_foldl_insertEntry (P Q : Yaml.Tree α → Prop)
    {entries known : List (Yaml.Tree α × Yaml.Tree α)}
    (hk : ∀ e ∈ known, P e.1 ∧ Q e.2) (hs : ∀ e ∈ entries, P e.1 ∧ Q e.2) :
    ∀ e ∈ entries.foldl (fun es e => insertEntry same es e.1 e.2) known, P e.1 ∧ Q e.2 := by
  induction entries generalizing known with
  | nil => exact hk
  | cons entry rest ih =>
    obtain ⟨hfirst, hrest⟩ := List.forall_mem_cons.1 hs
    exact ih (forall_insertEntry hk hfirst.1 hfirst.2) hrest

end Entries

theorem ofEntries_texts (es : List (Text × Yaml.Tree α)) :
    ofEntries (ofTexts es) = .map (ofTexts (Table.ofEntries es)) := by
  have hfold : ∀ (es : List (Text × Yaml.Tree α)) (t : Table (Yaml.Tree α)),
      (ofTexts es).foldl (fun es e => insertEntry sameKey es e.1 e.2) (ofTexts t)
        = ofTexts (Table.insertAll t es) := by
    intro es
    induction es with
    | nil => exact fun t => rfl
    | cons e es ih =>
      intro t
      show (ofTexts es).foldl _ (insertEntry sameKey (ofTexts t) (.text e.1 .plain) e.2) = _
      rw [insertEntry_texts]
      exact ih (Table.insert t e.1 e.2)
  exact congrArg Yaml.Tree.map (hfold es [])

end Yaml.Tree

end ModernControls
