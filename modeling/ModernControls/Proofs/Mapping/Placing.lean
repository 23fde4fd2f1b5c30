import ModernControls.Proofs.Mapping.Paths
import ModernControls.Proofs.Mapping.Usable
import ModernControls.Proofs.Outcomes
import ModernControls.Proofs.Texts

/-!
# What becomes of property values

No value of a classic property is lost without a note. Of every property it is noted once what
became of its value, and a value that was written stays where it was put unless a later property
writes there or above, which is noted too.

**Dispositions (`Disposed`).** What may be noted of a value by the table of a modern type, and the
path that the value is then written to: the key itself if the table does not know it, the keys
between the points of its target otherwise.

**One step (`Placed`).** Everything that placing one property may do.

**Replacing (`Replaces`).** A property that was written to a path or above it, and of which it is
noted that it overrides an earlier value.

A value is put at its own key as a whole, points and all, but looked for along the keys between the
points before. The two differ only for keys with points, and such a key is there before only if the
same property came earlier.

Results:
- `placed`: placing a property does one of five things;
- `at?_or_replaces`: a scalar stays, or its place is noted as overridden;
- `accounted_mapProperties`: what comes out accounts for every value;
- `values_accounted`: the fate of every value, and when there is a result.
-/
namespace ModernControls

namespace Note

/-- The classic property that a note is about. -/
def subject? : Note → Option Text
  | skipped key => some key
  | overrides key _ => some key
  | kept key => some key
  | dropped key => some key
  | blocked key _ => some key
  | converted key _ => some key
  | _ => none

/-- Whether a note says what became of a value. -/
def isDisposition : Note → Bool
  | kept _ => true
  | dropped _ => true
  | blocked .. => true
  | converted .. => true
  | _ => false

/-- Whether a note is about a property. -/
def isAbout (key : Text) (n : Note) : Bool := n.subject? = some key

/-- Whether a note says what became of the value of a property. -/
def disposes (key : Text) (n : Note) : Bool := n.isAbout key && n.isDisposition

end Note

namespace Mapping

open Properties Property

/-- What may be noted of a value by the table of a modern type, and the path that the value is
written to then. -/
inductive Disposed (table : Table (Option Text)) (key : Text) : Note → Option Path → Prop
  | dropped (h : table.get? key = some none) : Disposed table key (.dropped key) none
  | blocked {target : Text} (h : table.get? key = some (some target)) :
    Disposed table key (.blocked key (Text.cut '.' target).1) none
  | kept (h : table.get? key = none) : Disposed table key (.kept key) (some [key])
  | converted {target : Text} (h : table.get? key = some (some target)) :
    Disposed table key (.converted key target) (some (target.split '.'))

/-- Whether a property was written to a path or above it, and is noted to override a value. -/
def Replaces (table : Table (Option Text)) (notes : List Note) (key : Text) (path : Path) : Prop :=
  ∃ note ∈ notes, ∃ above, Disposed table key note (some above) ∧ above <+: path
    ∧ ∃ target, Note.overrides key target ∈ notes

/-- Whether what properties are mapped to and what is noted account for every one of them. A
property without a value is noted as skipped, and the others are mapped as if it were not there. Of
the value of any other it is noted once what became of it; if it was kept or converted, each scalar
in it, at any depth, stands below the path that it was written to, unless a later property replaces
it. -/
structure Accounted (m : Mapping) (modernType : Text) (classic mapped : Properties)
    (notes : List Note) : Prop where
  skipped : ∀ before key after, classic = before ++ (key, .empty) :: after →
    notes.filter (Note.isAbout key) = [.skipped key]
      ∧ ∃ others, m.mapProperties (before ++ after) modernType = .ok (mapped, others)
  disposed : ∀ before key value after, classic = before ++ (key, value) :: after →
    value ≠ .empty → ∃ note written, notes.filter (Note.disposes key) = [note]
      ∧ Disposed (m.propertyTable modernType) key note written
      ∧ ∀ path ∈ written, ∀ sub leaf, value.at? sub = some leaf → leaf.isScalar = true →
        (object mapped).at? (path ++ sub) = some leaf
          ∨ ∃ later ∈ after, Replaces (m.propertyTable modernType) notes later.1 (path ++ sub)

/-- Whether the targets of a table are keys, or keys with points between them. -/
def HasKeyPaths (table : Table (Option Text)) : Prop :=
  ∀ entry ∈ table, ∀ target ∈ entry.2, IsKeyPath target

variable {m : Mapping} {table : Table (Option Text)} {done out : Properties} {key : Text}
  {value leaf : Property} {path sub : Path} {notes : List Note} {r : Properties × List Note}

theorem Replaces.mono {more : List Note} (h : Replaces table notes key path)
    (hsub : notes ⊆ more) : Replaces table more key path := by
  obtain ⟨note, hnote, above, hd, hpre, target, hover⟩ := h
  exact ⟨note, hsub hnote, above, hd, hpre, target, hsub hover⟩

/-! ## Targets -/

theorem hasKeyPaths_propertyTable (h : m.Usable) (modernType : Text) :
    HasKeyPaths (m.propertyTable modernType) := by
  unfold propertyTable
  split
  · next found hfound =>
    obtain ⟨k, hk⟩ := mem_of_typedLookup hfound
    exact h.targets (k, found) hk
  · cases hg : Table.get? m.properties commonKey with
    | none => exact List.forall_mem_nil _
    | some found => exact h.targets (commonKey, found) (Table.mem_of_get? hg)

theorem HasKeyPaths.target {target : Text} (h : HasKeyPaths table)
    (hg : table.get? key = some (some target)) : IsKeyPath target :=
  h (key, some target) (Table.mem_of_get? hg) target rfl

/-- Without an empty key between its points a text means the keys between them. -/
theorem ofText_eq_split {target : Text} (h : ∀ key ∈ target.split '.', key ≠ []) :
    Path.ofText target = target.split '.' := by
  unfold Path.ofText
  rw [if_neg]
  rintro ⟨-, hlast⟩
  exact h [] (List.mem_of_getLast? hlast) rfl

theorem ofText_of_isKeyPath {target : Text} (h : IsKeyPath target) :
    Path.ofText target = target.split '.' := ofText_eq_split h.2

theorem ofText_of_not_mem {target : Text} (h : '.' ∉ target) : Path.ofText target = [target] := by
  unfold Path.ofText
  rw [Text.split_of_not_mem h]
  simp

/-! ## One step -/

/-- What placing a property may do. -/
inductive Placed (table : Table (Option Text)) (done : Properties) (key : Text) (value : Property) :
    Properties × List Note → Prop
  | skipped (hv : value = .empty) : Placed table done key value (done, [.skipped key])
  | dropped (hv : value ≠ .empty) (ht : table.get? key = some none) :
    Placed table done key value (done, [.dropped key])
  | blocked {target : Text} (hv : value ≠ .empty) (ht : table.get? key = some (some target))
    (ha : assign done value (target.split '.') = none) :
    Placed table done key value
      (done, overrideNote done key target ++ [.blocked key (Text.cut '.' target).1])
  | kept {out : Properties} (hv : value ≠ .empty) (ht : table.get? key = none)
    (ha : assign done value [key] = some out) :
    Placed table done key value (out, overrideNote done key key ++ [.kept key])
  | converted {target : Text} {out : Properties} (hv : value ≠ .empty)
    (ht : table.get? key = some (some target))
    (ha : assign done value (target.split '.') = some out) :
    Placed table done key value (out, overrideNote done key target ++ [.converted key target])

theorem place_of_ne_empty (hv : value ≠ .empty) : place table done key value
    = match table.get? key with
      | none => (Table.insert done key value, overrideNote done key key ++ [.kept key])
      | some target => placeAt done key value target := by
  cases value with
  | empty => exact absurd rfl hv
  | _ => rfl

theorem placed (h : HasKeyPaths table) (done : Properties) (key : Text) (value : Property) :
    Placed table done key value (place table done key value) := by
  by_cases hv : value = .empty
  · subst hv
    exact .skipped rfl
  · rw [place_of_ne_empty hv]
    split
    · next hg => exact .kept hv hg rfl
    · next target? hg =>
      cases target? with
      | none => exact .dropped hv hg
      | some target =>
        rw [placeAt]
        split
        · rw [placeAtPath, ofText_of_isKeyPath (h.target hg)]
          split
          · next out ha => exact .converted hv hg ha
          · next ha => exact .blocked hv hg ha
        · next hdot =>
          have hsplit : target.split '.' = [target] := Text.split_of_not_mem (by simpa using hdot)
          exact .converted hv hg (by rw [hsplit]; rfl)

theorem overrideNote_cases (done : Properties) (key target : Text) :
    overrideNote done key target = [] ∨ overrideNote done key target = [.overrides key target] := by
  unfold overrideNote
  split
  · exact .inl rfl
  · exact .inr rfl

/-- All that is noted in a step is about its property. -/
theorem subject_of_placed (h : Placed table done key value r) :
    ∀ n ∈ r.2, n.subject? = some key := by
  have hover : ∀ target, ∀ n ∈ overrideNote done key target, n.subject? = some key := by
    intro target n hn
    rcases overrideNote_cases done key target with he | he
    · rw [he] at hn
      cases hn
    · rw [he, List.mem_singleton] at hn
      rw [hn]
      rfl
  cases h with
  | skipped => exact List.forall_mem_singleton.2 rfl
  | dropped => exact List.forall_mem_singleton.2 rfl
  | blocked => exact List.forall_mem_append.2 ⟨hover _, List.forall_mem_singleton.2 rfl⟩
  | kept => exact List.forall_mem_append.2 ⟨hover _, List.forall_mem_singleton.2 rfl⟩
  | converted => exact List.forall_mem_append.2 ⟨hover _, List.forall_mem_singleton.2 rfl⟩

theorem filter_disposes (target : Text) {n : Note} (hn : n.disposes key = true) :
    (overrideNote done key target ++ [n]).filter (Note.disposes key) = [n] := by
  rw [List.filter_append, List.filter_cons_of_pos hn]
  rcases overrideNote_cases done key target with he | he
  · rw [he]
    rfl
  · have hnot : Note.disposes key (.overrides key target) = false := by
      simp [Note.disposes, Note.isDisposition]
    rw [he, List.filter_cons_of_neg (by simp [hnot])]
    rfl

/-- Of a value it is noted once what became of it, and it is written where this says. -/
theorem exists_disposed (hv : value ≠ .empty) (h : Placed table done key value r) :
    ∃ note written, r.2.filter (Note.disposes key) = [note] ∧ Disposed table key note written
      ∧ ∀ path ∈ written, assign done value path = some r.1 := by
  have hself : ∀ n : Note, n.subject? = some key → n.isDisposition = true →
      n.disposes key = true := fun n hs hd => by
    simp [Note.disposes, Note.isAbout, hs, hd]
  cases h with
  | skipped he => exact absurd he hv
  | dropped _ ht =>
    exact ⟨_, none, List.filter_cons_of_pos (hself (.dropped key) rfl rfl), .dropped ht, nofun⟩
  | blocked _ ht _ =>
    exact ⟨_, none, filter_disposes _ (hself (.blocked key _) rfl rfl), .blocked ht, nofun⟩
  | kept _ ht ha =>
    refine ⟨_, _, filter_disposes key (hself (.kept key) rfl rfl), .kept ht, ?_⟩
    intro path hp
    exact Option.some.inj hp ▸ ha
  | converted _ ht ha =>
    refine ⟨_, _, filter_disposes _ (hself (.converted key _) rfl rfl), .converted ht, ?_⟩
    intro path hp
    exact Option.some.inj hp ▸ ha

/-- A step adds no key with points but its own. -/
theorem mem_keys_of_placed (h : Placed table done key value r) {other : Text}
    (hm : other ∈ Table.keys r.1) : other ∈ Table.keys done ∨ other = key ∨ '.' ∉ other := by
  cases h with
  | skipped => exact .inl hm
  | dropped => exact .inl hm
  | blocked => exact .inl hm
  | kept _ _ ha =>
    rcases (mem_keys_assign ha).1 hm with hm | hm
    · exact .inl hm
    · exact .inr (.inl (Option.some.inj hm).symm)
  | converted _ _ ha =>
    rcases (mem_keys_assign ha).1 hm with hm | hm
    · exact .inl hm
    · exact .inr (.inr (Text.not_mem_of_mem_split (List.mem_of_head? hm)))

/-! ## Scalars stay -/

/-- Where a scalar stands after a write: where it was, unless the write was there or above. -/
theorem at?_assign_or_below (ha : assign done value path = some out) {place : Path}
    (hat : (object done).at? place = some leaf) (hs : leaf.isScalar = true) :
    (object out).at? place = some leaf ∨ path <+: place := by
  by_cases hbelow : path <+: place
  · exact .inr hbelow
  · by_cases habove : place <+: path
    · obtain ⟨below, rfl⟩ := habove
      have hplace : place ≠ [] := by
        rintro rfl
        obtain rfl := Option.some.inj hat
        cases hs
      have hne : below ≠ [] := by
        rintro rfl
        rw [List.append_nil] at hbelow
        exact hbelow List.prefix_rfl
      have hnone : assign done value (place ++ below) = none :=
        assign_eq_none_iff.2 (.inr ⟨place, below, leaf, rfl, hplace, hne, hat, hs⟩)
      rw [hnone] at ha
      cases ha
    · exact .inl ((at?_assign_of_apart ha ⟨hbelow, habove⟩).trans hat)

/-- A write to a place with a scalar at it or below is noted as overriding. -/
theorem overrideNote_of_at? (key : Text) {target : Text} (ht : Path.ofText target = path)
    (hp : path ≠ []) (hat : (object done).at? (path ++ sub) = some leaf) (hs : leaf.isScalar = true) :
    overrideNote done key target = [.overrides key target] := by
  rw [at?_append] at hat
  obtain ⟨inner, hinner, hat⟩ := Option.bind_eq_some_iff.1 hat
  have hne : inner ≠ .empty := by
    rintro rfl
    by_cases hsub : sub = []
    · subst hsub
      obtain rfl := Option.some.inj hat
      cases hs
    · rw [at?_eq_none rfl hsub] at hat
      cases hat
  unfold overrideNote
  rw [ht, lookup_eq done hp, hinner]
  exact if_neg hne

/-- A scalar stays through a step, or its place is noted as overridden. A key with points must be
new: the look-up before its write goes along the keys between the points. -/
theorem at?_or_replaces_of_placed (hk : HasKeyPaths table) (h : Placed table done key value r)
    (hnew : '.' ∈ key → key ∉ Table.keys done) (hat : (object done).at? path = some leaf)
    (hs : leaf.isScalar = true) :
    (object r.1).at? path = some leaf ∨ Replaces table r.2 key path := by
  cases h with
  | skipped => exact .inl hat
  | dropped => exact .inl hat
  | blocked => exact .inl hat
  | kept _ ht ha =>
    refine (at?_assign_or_below ha hat hs).imp_right fun hpre => ?_
    obtain ⟨sub, rfl⟩ := hpre
    have hdot : '.' ∉ key := by
      intro hdot
      apply hnew hdot
      rw [List.singleton_append, at?_cons] at hat
      obtain ⟨v, hv, -⟩ := Option.bind_eq_some_iff.1 hat
      rw [← Table.get?_isSome_iff, hv]
      rfl
    have hover := overrideNote_of_at? key (ofText_of_not_mem hdot)
      (List.cons_ne_nil _ _) hat hs
    exact ⟨.kept key, by simp, [key], .kept ht, List.prefix_append _ _, key, by simp [hover]⟩
  | @converted target _ _ ht ha =>
    refine (at?_assign_or_below ha hat hs).imp_right fun hpre => ?_
    obtain ⟨sub, rfl⟩ := hpre
    have hover := overrideNote_of_at? key (ofText_of_isKeyPath (hk.target ht))
      (Text.split_ne_nil '.' target) hat hs
    exact ⟨.converted key target, by simp, target.split '.', .converted ht,
      List.prefix_append _ _, target, by simp [hover]⟩

/-! ## All properties -/

theorem placeAll_append (table : Table (Option Text)) (done : Properties)
    (first rest : List (Text × Property)) : placeAll table done (first ++ rest)
      = ((placeAll table (placeAll table done first).1 rest).1,
          (placeAll table done first).2
            ++ (placeAll table (placeAll table done first).1 rest).2) := by
  induction first generalizing done with
  | nil => rfl
  | cons entry others ih => simp only [List.cons_append, placeAll, ih, List.append_assoc]

theorem subject_placeAll (hk : HasKeyPaths table) (done : Properties)
    (classic : List (Text × Property)) :
    ∀ n ∈ (placeAll table done classic).2, ∃ k ∈ Table.keys classic, n.subject? = some k := by
  induction classic generalizing done with
  | nil => exact List.forall_mem_nil _
  | cons entry rest ih =>
    intro n hn
    rcases List.mem_append.1 hn with hn | hn
    · exact ⟨entry.1, List.mem_cons_self, subject_of_placed (placed hk done entry.1 entry.2) n hn⟩
    · obtain ⟨k, hmem, hs⟩ := ih _ n hn
      exact ⟨k, List.mem_cons_of_mem _ hmem, hs⟩

/-- A scalar stays to the end, or a property notes that it overrides its place. The induction is on
the properties; that keys with points are new is kept along. -/
theorem at?_or_replaces (hk : HasKeyPaths table) {classic : List (Text × Property)}
    (hn : (Table.keys classic).Nodup)
    (hnew : ∀ k ∈ Table.keys classic, '.' ∈ k → k ∉ Table.keys done)
    (hat : (object done).at? path = some leaf) (hs : leaf.isScalar = true) :
    (object (placeAll table done classic).1).at? path = some leaf
      ∨ ∃ later ∈ classic, Replaces table (placeAll table done classic).2 later.1 path := by
  induction classic generalizing done with
  | nil => exact .inl hat
  | cons entry rest ih =>
    obtain ⟨hfirst, hrest⟩ := List.nodup_cons.1 hn
    have hstep := placed hk done entry.1 entry.2
    rcases at?_or_replaces_of_placed hk hstep (hnew entry.1 List.mem_cons_self) hat hs with
      hat | hreplaces
    · have hnew' : ∀ k ∈ Table.keys rest, '.' ∈ k →
          k ∉ Table.keys (place table done entry.1 entry.2).1 := by
        intro k hmem hdot hbefore
        rcases mem_keys_of_placed hstep hbefore with h | rfl | h
        · exact hnew k (List.mem_cons_of_mem _ hmem) hdot h
        · exact hfirst hmem
        · exact h hdot
      refine (ih hrest hnew' hat).imp_right fun hlater => ?_
      obtain ⟨later, hmem, hreplaces⟩ := hlater
      exact ⟨later, List.mem_cons_of_mem _ hmem,
        hreplaces.mono (List.subset_append_right _ _)⟩
    · exact .inr ⟨entry, List.mem_cons_self, hreplaces.mono (List.subset_append_left _ _)⟩

/-- Keys with points are those of properties that were placed. -/
theorem mem_keys_placeAll (hk : HasKeyPaths table) {classic : List (Text × Property)} {other : Text}
    (hm : other ∈ Table.keys (placeAll table done classic).1) :
    other ∈ Table.keys done ∨ other ∈ Table.keys classic ∨ '.' ∉ other := by
  induction classic generalizing done with
  | nil => exact .inl hm
  | cons entry rest ih =>
    rcases ih hm with h | h | h
    · rcases mem_keys_of_placed (placed hk done entry.1 entry.2) h with h | rfl | h
      · exact .inl h
      · exact .inr (.inl List.mem_cons_self)
      · exact .inr (.inr h)
    · exact .inr (.inl (List.mem_cons_of_mem _ h))
    · exact .inr (.inr h)

/-- What the first properties have left stays to the end, or one of the rest notes that it
overrides its place. -/
theorem at?_or_replaces_of_append (hk : HasKeyPaths table) {first rest : List (Text × Property)}
    (hn : (Table.keys (first ++ rest)).Nodup)
    (hat : (object (placeAll table [] first).1).at? path = some leaf) (hs : leaf.isScalar = true) :
    (object (placeAll table [] (first ++ rest)).1).at? path = some leaf
      ∨ ∃ later ∈ rest, Replaces table (placeAll table [] (first ++ rest)).2 later.1 path := by
  rw [Table.keys, List.map_append, List.nodup_append] at hn
  obtain ⟨-, hrest, hdisjoint⟩ := hn
  have hnew : ∀ k ∈ Table.keys rest, '.' ∈ k → k ∉ Table.keys (placeAll table [] first).1 := by
    intro k hmem hdot hbefore
    rcases mem_keys_placeAll hk hbefore with h | h | h
    · cases h
    · exact hdisjoint k h k hmem rfl
    · exact h hdot
  rw [placeAll_append]
  refine (at?_or_replaces hk hrest hnew hat hs).imp_right fun hlater => ?_
  obtain ⟨later, hmem, hreplaces⟩ := hlater
  exact ⟨later, hmem, hreplaces.mono (List.subset_append_right _ _)⟩

/-! ## Defaults -/

theorem subject_addDefaults {defaults : List (Text × Json)}
    (h : addDefaults done defaults = .ok r) : ∀ n ∈ r.2, n.subject? = none := by
  intro n hn
  obtain ⟨d, rfl⟩ := exists_of_mem_addDefaults h hn
  rfl

/-- What stands at a path stands there still when more keys come after. -/
theorem at?_of_isPrefix (h : done <+: out) (hp : path ≠ [])
    (hat : (object done).at? path = some leaf) : (object out).at? path = some leaf := by
  obtain ⟨key, rest, rfl⟩ := List.exists_cons_of_ne_nil hp
  obtain ⟨more, rfl⟩ := h
  rw [at?_cons] at hat ⊢
  obtain ⟨v, hv, hat⟩ := Option.bind_eq_some_iff.1 hat
  rw [Table.get?_append hv]
  exact hat

/-! ## The fate of every value -/

theorem mapProperties_eq {classic mapped : Properties} {modernType : Text}
    (h : m.mapProperties classic modernType = .ok (mapped, notes)) :
    ∃ added, addDefaults (placeAll (m.propertyTable modernType) [] classic).1
        (m.defaultsFor modernType) = .ok (mapped, added)
      ∧ notes = (placeAll (m.propertyTable modernType) [] classic).2 ++ added := by
  obtain ⟨added, hadded, h⟩ := exists_of_bind h
  obtain ⟨rfl, rfl⟩ := Prod.mk.inj (Except.ok.inj h)
  exact ⟨added.2, hadded, rfl⟩

/-- What is noted about a property is noted in its step. -/
theorem filter_notes (hk : HasKeyPaths table) {before after : List (Text × Property)}
    (hn : (Table.keys (before ++ (key, value) :: after)).Nodup) {added : List Note}
    (ha : ∀ n ∈ added, n.subject? = none) {p : Note → Bool}
    (hp : ∀ n, p n = true → n.subject? = some key) :
    ((placeAll table [] (before ++ (key, value) :: after)).2 ++ added).filter p
      = (place table (placeAll table [] before).1 key value).2.filter p := by
  rw [Table.keys, List.map_append, List.map_cons, List.nodup_append] at hn
  obtain ⟨-, hafter, hbefore⟩ := hn
  have hnone : ∀ (done : Properties) (others : List (Text × Property)), key ∉ Table.keys others →
      (placeAll table done others).2.filter p = [] := by
    intro done others hnot
    rw [List.filter_eq_nil_iff]
    intro n hmem hpn
    obtain ⟨k, hkeys, hs⟩ := subject_placeAll hk done others n hmem
    rw [hp n hpn] at hs
    exact hnot (Option.some.inj hs ▸ hkeys)
  have hadded : added.filter p = [] := by
    rw [List.filter_eq_nil_iff]
    intro n hmem hpn
    have hs := ha n hmem
    rw [hp n hpn] at hs
    cases hs
  have hnotbefore : key ∉ Table.keys before := fun hmem =>
    hbefore key hmem key List.mem_cons_self rfl
  rw [placeAll_append]
  simp only [placeAll, List.filter_append, hadded, hnone _ _ hnotbefore,
    hnone _ _ (List.nodup_cons.1 hafter).1, List.append_nil, List.nil_append]

/-- Properties without a value are passed over. -/
theorem placeAll_skip (table : Table (Option Text)) (before after : List (Text × Property))
    (key : Text) : (placeAll table [] (before ++ (key, .empty) :: after)).1
      = (placeAll table [] (before ++ after)).1 := by
  rw [placeAll_append, placeAll_append]
  rfl

theorem accounted_mapProperties (hm : m.Usable) {classic mapped : Properties}
    (hn : (Table.keys classic).Nodup) {modernType : Text}
    (hok : m.mapProperties classic modernType = .ok (mapped, notes)) :
    Accounted m modernType classic mapped notes := by
  have hk := hasKeyPaths_propertyTable hm modernType
  obtain ⟨added, hadded, rfl⟩ := mapProperties_eq hok
  constructor
  · rintro before key after rfl
    constructor
    · rw [filter_notes hk hn (subject_addDefaults hadded) fun n hp => by
        simpa [Note.isAbout] using hp]
      exact List.filter_cons_of_pos (by simp [Note.isAbout, Note.subject?])
    · rw [placeAll_skip] at hadded
      exact ⟨_, by rw [mapProperties, hadded]; rfl⟩
  · rintro before key value after rfl hv
    obtain ⟨note, written, hnote, hd, hwritten⟩ :=
      exists_disposed hv (placed hk (placeAll (m.propertyTable modernType) [] before).1 key value)
    refine ⟨note, written, ?_, hd, ?_⟩
    · rw [filter_notes hk hn (subject_addDefaults hadded) fun n hp => ?_, hnote]
      simp only [Note.disposes, Note.isAbout, Bool.and_eq_true, decide_eq_true_eq] at hp
      exact hp.1
    · intro path hp sub leaf hleaf hs
      have hat : (object (placeAll (m.propertyTable modernType) [] (before ++ [(key, value)])).1).at?
          (path ++ sub) = some leaf := by
        rw [placeAll_append]
        exact (at?_assign (hwritten path hp) sub).trans hleaf
      have hne : path ++ sub ≠ [] := by
        intro hnil
        rw [hnil] at hat
        obtain rfl := Option.some.inj hat
        cases hs
      rw [List.append_cons] at hn hadded ⊢
      rcases at?_or_replaces_of_append hk hn hat hs with hat | ⟨later, hmem, hreplaces⟩
      · exact .inl (at?_of_isPrefix (prefix_addDefaults hadded) hne hat)
      · exact .inr ⟨later, hmem, hreplaces.mono (List.subset_append_left _ _)⟩

/-- No value is lost silently: with a usable configuration properties are mapped, unless a default
that is added is too long to be noted, and what comes out, with what is noted, accounts for every
value. -/
theorem values_accounted (hm : m.Usable) {classic : Properties}
    (hn : (Table.keys classic).Nodup) (modernType : Text) :
    GivesIff (m.AddsShort classic modernType) (m.mapProperties classic modernType) fun r =>
      Accounted m modernType classic r.1 r.2 :=
  mapProperties_givesIff hm fun _ hok => accounted_mapProperties hm hn hok

/-- A button whose radius for all corners comes after one for a single corner, with a key that holds
a point, an object, a property without a modern place and one without a value. -/
def roundButton : Properties :=
  [("RadiusTopLeft".toList, .int 8),
    ("Border.Style".toList, .object [("Width".toList, .int 1), ("Color".toList, .empty)]),
    ("BorderRadius".toList, .formula "4".toList), ("RadiusTopRight".toList, .int 8),
    ("Wrap".toList, .bool true), ("Tooltip".toList, .empty)]

theorem values_accounted_roundButton : builtIn.Usable ∧ (Table.keys roundButton).Nodup
    ∧ ∃ r, builtIn.mapProperties roundButton "Button@0.0.45".toList = .ok r
      ∧ Accounted builtIn "Button@0.0.45".toList roundButton r.1 r.2 := by
  have hn : (Table.keys roundButton).Nodup := by decide +kernel
  exact ⟨usable_builtIn, hn,
    (values_accounted usable_builtIn hn _).exists_ok (addsShort_builtIn _ _)⟩

end Mapping

end ModernControls
