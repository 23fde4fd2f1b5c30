import ModernControls.Proofs.Mapping.Placing

/-!
# Properties in any order

Properties whose places are apart from one another are mapped alike in every order: the results
hold the same at every path, and no value is turned away.

**Alike (`Property.Alike`).** Two values hold the same at every path, but for the order of keys:
equal values, or objects with the same keys in some order.

**Writes (`writes`).** What the table of a modern type makes of properties: the paths of those that
have a value and a modern place, with their values.

**Filled (`Filled`).** Properties that hold some writes and nothing else. Below each path stands its
value, above it stand objects, and elsewhere there is nothing. This says what stands at every path
without a word on the order of the writes, so it is the invariant of the steps.

Results:
- `Filled.assign`, `Filled.placeAll`: each property is written, and nothing else is changed;
- `Filled.alike`: properties that are filled by the same writes are alike;
- `alike_addDefaults`: defaults are added alike;
- `alike_of_perm`: the law.
-/
namespace ModernControls

namespace Path

instance (p q : Path) : Decidable (Apart p q) := inferInstanceAs (Decidable (_ ∧ _))

/-- What stands below one of two paths that are apart is apart from the other. -/
theorem Apart.append {p q : Path} (h : Apart p q) (sub : Path) : Apart p (q ++ sub) :=
  ⟨fun hp => (List.prefix_or_prefix_of_prefix hp (List.prefix_append q sub)).elim h.1 h.2,
    fun hq => h.2 ((List.prefix_append q sub).trans hq)⟩

/-- Paths that are not apart from a path, and do not lead above it, lead above or to it. -/
theorem exists_below_of_isPrefix {p q : Path} (h : p <+: q) (hn : ¬ q <+: p) :
    ∃ below, below ≠ [] ∧ q = p ++ below := by
  obtain ⟨below, rfl⟩ := h
  refine ⟨below, ?_, rfl⟩
  rintro rfl
  rw [List.append_nil] at hn
  exact hn List.prefix_rfl

end Path

namespace Property

/-- Whether two values are equal, or objects with the same keys in some order. -/
inductive SameFace : Property → Property → Prop
  | same (v : Property) : SameFace v v
  | object {es fs : Properties} (h : (Table.keys es).Perm (Table.keys fs)) :
    SameFace (.object es) (.object fs)

/-- Whether two values hold the same at every path, but for the order of keys. -/
def Alike (a b : Property) : Prop := ∀ path, Option.Rel SameFace (a.at? path) (b.at? path)

theorem rel_self (v? : Option Property) : Option.Rel SameFace v? v? := by
  cases v? with
  | none => exact .none
  | some v => exact .some (.same v)

end Property

namespace Properties

open Property

variable {ps out : Properties} {value : Property} {path : Path}

/-- A write keeps the keys of the objects above its path distinct. -/
theorem nodup_of_assign (h : assign ps value path = some out) {above below : Path}
    (hp : path = above ++ below) (hb : below ≠ [])
    (hps : ∀ es, (object ps).at? above = some (.object es) → (Table.keys es).Nodup)
    {es : Properties} (hes : (object out).at? above = some (.object es)) :
    (Table.keys es).Nodup := by
  refine assign_induction (P := fun ps path out => ∀ above, path = above ++ below →
    (∀ es, (object ps).at? above = some (.object es) → (Table.keys es).Nodup) →
    ∀ es, (object out).at? above = some (.object es) → (Table.keys es).Nodup) ?_ ?_ h
    above hp hps es hes
  · intro ps key above hp hps es hes
    cases above with
    | nil =>
      obtain rfl := Property.object.inj (Option.some.inj hes)
      exact Table.nodup_insert (hps ps rfl) key value
    | cons k above =>
      obtain ⟨-, hnil⟩ := List.cons.inj hp
      exact absurd (List.append_eq_nil_iff.1 hnil.symm).2 hb
  · intro ps key rest entries inner _ ho ih above hp hps es hes
    cases above with
    | nil =>
      obtain rfl := Property.object.inj (Option.some.inj hes)
      exact Table.nodup_insert (hps ps rfl) key _
    | cons k above =>
      obtain ⟨rfl, hrest⟩ := List.cons.inj hp
      rw [at?_insert_self] at hes
      refine ih above hrest (fun es he => ?_) es hes
      by_cases hn : above = []
      · subst hn
        obtain rfl := Property.object.inj (Option.some.inj he)
        rcases ho with ⟨-, rfl⟩ | hv
        · exact List.nodup_nil
        · refine hps _ ?_
          rw [at?_key]
          unfold valueAt at hv
          cases hg : Table.get? ps key with
          | none => rw [hg] at hv; cases hv
          | some v => rw [hg] at hv; exact congrArg some hv
      · exact hps es ((ho.at? hn).trans he)

end Properties

namespace Mapping

open Properties Property

/-- Where the table of a modern type puts a property: at its own key if the table does not know it,
nowhere if it has no modern place, and along the keys between the points of its target otherwise. -/
def destination (table : Table (Option Text)) (key : Text) : Option Path :=
  match table.get? key with
  | none => some [key]
  | some none => none
  | some (some target) => some (target.split '.')

/-- What becomes of a property by the table of a modern type, if it has a value and a place. -/
def writeOf (table : Table (Option Text)) (entry : Text × Property) : Option (Path × Property) :=
  if entry.2 = .empty then none else (destination table entry.1).map fun path => (path, entry.2)

/-- What becomes of properties by the table of a modern type. -/
def writes (table : Table (Option Text)) (classic : List (Text × Property)) :
    List (Path × Property) :=
  classic.filterMap (writeOf table)

/-- Whether properties hold some writes and nothing else. -/
structure Filled (ws : List (Path × Property)) (ps : Properties) : Prop where
  written : ∀ w ∈ ws, ∀ sub, (object ps).at? (w.1 ++ sub) = w.2.at? sub
  above : ∀ w ∈ ws, ∀ path below, w.1 = path ++ below → below ≠ [] →
    ∃ es, (object ps).at? path = some (.object es)
  apart : ∀ path, path ≠ [] → (∀ w ∈ ws, Path.Apart w.1 path) → (object ps).at? path = none
  distinct : ∀ path es, (∀ w ∈ ws, ¬ w.1 <+: path) → (object ps).at? path = some (.object es) →
    (Table.keys es).Nodup

variable {m : Mapping} {table : Table (Option Text)} {ws ws' : List (Path × Property)}
  {ps ps' done : Properties} {value : Property} {path : Path}

/-! ## Steps -/

theorem filled_nil : Filled [] [] where
  written := List.forall_mem_nil _
  above := List.forall_mem_nil _
  apart path hp _ := by
    obtain ⟨key, rest, rfl⟩ := List.exists_cons_of_ne_nil hp
    rfl
  distinct path es _ h := by
    cases path with
    | nil =>
      obtain rfl := Property.object.inj (Option.some.inj h)
      exact List.nodup_nil
    | cons key rest => cases h

/-- A path leads to a write or below one, or above one, or is apart from all. -/
theorem path_cases (ws : List (Path × Property)) (path : Path) :
    (∃ w ∈ ws, w.1 <+: path)
      ∨ (∀ w ∈ ws, ¬ w.1 <+: path) ∧ ((∃ w ∈ ws, path <+: w.1) ∨ ∀ w ∈ ws, Path.Apart w.1 path) := by
  by_cases hbelow : ∃ w ∈ ws, w.1 <+: path
  · exact .inl hbelow
  · have hnot : ∀ w ∈ ws, ¬ w.1 <+: path := fun w hw h => hbelow ⟨w, hw, h⟩
    refine .inr ⟨hnot, ?_⟩
    by_cases habove : ∃ w ∈ ws, path <+: w.1
    · exact .inl habove
    · exact .inr fun w hw => ⟨hnot w hw, fun h => habove ⟨w, hw, h⟩⟩

/-- Nothing stands in the way of a write that is apart from those before. -/
theorem Filled.exists_assign (h : Filled ws ps) (hp : path ≠ [])
    (ha : ∀ w ∈ ws, Path.Apart w.1 path) (value : Property) :
    ∃ out, assign ps value path = some out := by
  cases hout : assign ps value path with
  | some out => exact ⟨out, rfl⟩
  | none =>
    rcases assign_eq_none_iff.1 hout with hnil | ⟨place, below, u, rfl, hplace, -, hat, hu⟩
    · exact absurd hnil hp
    · have hsub : place <+: place ++ below := List.prefix_append _ _
      rcases path_cases ws place with ⟨w, hw, hpre⟩ | ⟨hnot, ⟨w, hw, hpre⟩ | hnone⟩
      · exact absurd (hpre.trans hsub) (ha w hw).1
      · obtain ⟨rest, hrest, heq⟩ := Path.exists_below_of_isPrefix hpre (hnot w hw)
        obtain ⟨es, hes⟩ := h.above w hw place rest heq hrest
        rw [hat] at hes
        obtain rfl := Option.some.inj hes
        cases hu
      · rw [h.apart place hplace hnone] at hat
        cases hat

/-- A write that is apart from those before is added to them. -/
theorem Filled.assign (h : Filled ws ps) (ha : ∀ w ∈ ws, Path.Apart w.1 path) {out : Properties}
    (hout : assign ps value path = some out) : Filled (ws ++ [(path, value)]) out where
  written := by
    refine List.forall_mem_append.2 ⟨fun w hw sub => ?_, List.forall_mem_singleton.2 fun sub => ?_⟩
    · rw [at?_assign_of_apart hout ((ha w hw).symm.append sub)]
      exact h.written w hw sub
    · exact at?_assign hout sub
  above := by
    refine List.forall_mem_append.2 ⟨fun w hw place below heq hb => ?_,
      List.forall_mem_singleton.2 fun place below heq hb => exists_object_of_assign hout heq hb⟩
    have hpre : place <+: w.1 := heq ▸ List.prefix_append place below
    have hnot : ¬ path <+: place := fun hp => (ha w hw).2 (hp.trans hpre)
    by_cases hplace : place <+: path
    · obtain ⟨rest, hrest, hpath⟩ := Path.exists_below_of_isPrefix hplace hnot
      exact exists_object_of_assign hout hpath hrest
    · rw [at?_assign_of_apart hout ⟨hnot, hplace⟩]
      exact h.above w hw place below heq hb
  apart place hplace hall := by
    obtain ⟨hold, hnew⟩ := List.forall_mem_append.1 hall
    rw [at?_assign_of_apart hout (hnew _ List.mem_cons_self)]
    exact h.apart place hplace hold
  distinct place es hall hes := by
    obtain ⟨hold, hnew⟩ := List.forall_mem_append.1 hall
    have hnot : ¬ path <+: place := hnew _ List.mem_cons_self
    by_cases hplace : place <+: path
    · obtain ⟨rest, hrest, hpath⟩ := Path.exists_below_of_isPrefix hplace hnot
      exact nodup_of_assign hout hpath hrest (fun es he => h.distinct place es hold he) hes
    · rw [at?_assign_of_apart hout ⟨hnot, hplace⟩] at hes
      exact h.distinct place es hold hes

/-- Whether no value is turned away in notes. -/
def NoneBlocked (notes : List Note) : Prop := ∀ key head, Note.blocked key head ∉ notes

theorem noneBlocked_append {first rest : List Note} :
    NoneBlocked (first ++ rest) ↔ NoneBlocked first ∧ NoneBlocked rest := by
  simp only [NoneBlocked, List.mem_append, not_or, forall_and]

theorem noneBlocked_overrideNote (done : Properties) (key target : Text) :
    NoneBlocked (overrideNote done key target) := by
  intro k head hm
  rcases overrideNote_cases done key target with he | he
  · rw [he] at hm
    cases hm
  · rw [he, List.mem_singleton] at hm
    cases hm

/-- A step writes what becomes of its property, unless something stands in the way. -/
theorem writeOf_of_placed {key : Text} {r : Properties × List Note}
    (h : Placed table done key value r) :
    (writeOf table (key, value) = none ∧ r.1 = done ∧ NoneBlocked r.2)
      ∨ ∃ path, path ≠ [] ∧ writeOf table (key, value) = some (path, value)
        ∧ ∀ out, assign done value path = some out → r.1 = out ∧ NoneBlocked r.2 := by
  have hwrite : value ≠ .empty → writeOf table (key, value)
      = (destination table key).map fun path => (path, value) := fun hv => if_neg hv
  cases h with
  | skipped hv => exact .inl ⟨if_pos hv, rfl, by simp [NoneBlocked]⟩
  | dropped hv ht =>
    exact .inl ⟨by rw [hwrite hv, destination, ht]; rfl, rfl, by simp [NoneBlocked]⟩
  | @blocked target hv ht ha =>
    refine .inr ⟨target.split '.', Text.split_ne_nil '.' target, ?_, fun out hout => ?_⟩
    · rw [hwrite hv, destination, ht]
      rfl
    · rw [ha] at hout
      cases hout
  | kept hv ht ha =>
    refine .inr ⟨[key], List.cons_ne_nil _ _, ?_, fun out hout => ?_⟩
    · rw [hwrite hv, destination, ht]
      rfl
    · rw [ha] at hout
      exact ⟨Option.some.inj hout,
        noneBlocked_append.2 ⟨noneBlocked_overrideNote done key key, by simp [NoneBlocked]⟩⟩
  | @converted target _ hv ht ha =>
    refine .inr ⟨target.split '.', Text.split_ne_nil '.' target, ?_, fun out hout => ?_⟩
    · rw [hwrite hv, destination, ht]
      rfl
    · rw [ha] at hout
      exact ⟨Option.some.inj hout,
        noneBlocked_append.2 ⟨noneBlocked_overrideNote done key target, by simp [NoneBlocked]⟩⟩

/-! ## All properties -/

/-- Properties whose places are apart are all written, and none is turned away. The induction is on
the properties; what was written before is kept along. -/
theorem filled_placeAll (hk : HasKeyPaths table) {classic : List (Text × Property)}
    (h : Filled ws done)
    (ha : (ws ++ writes table classic).Pairwise fun w w' => Path.Apart w.1 w'.1) :
    Filled (ws ++ writes table classic) (placeAll table done classic).1
      ∧ NoneBlocked (placeAll table done classic).2 := by
  induction classic generalizing ws done with
  | nil =>
    rw [writes, List.filterMap_nil, List.append_nil]
    exact ⟨h, fun key head hm => nomatch hm⟩
  | cons entry rest ih =>
    obtain ⟨key, value⟩ := entry
    rcases writeOf_of_placed (placed hk done key value) with
      ⟨hnone, hsame, hfree⟩ | ⟨path, hp, hsome, hwritten⟩
    · have hws : writes table ((key, value) :: rest) = writes table rest :=
        List.filterMap_cons_none hnone
      have hnext : Filled ws (place table done key value).1 := by rw [hsame]; exact h
      rw [hws] at ha ⊢
      obtain ⟨hfilled, hrest⟩ := ih hnext ha
      exact ⟨hfilled, noneBlocked_append.2 ⟨hfree, hrest⟩⟩
    · have hws : writes table ((key, value) :: rest) = (path, value) :: writes table rest :=
        List.filterMap_cons_some hsome
      rw [hws] at ha ⊢
      have hbefore : ∀ w ∈ ws, Path.Apart w.1 path := fun w hw =>
        (List.pairwise_append.1 ha).2.2 w hw (path, value) List.mem_cons_self
      obtain ⟨out, hout⟩ := h.exists_assign hp hbefore value
      obtain ⟨hsame, hfree⟩ := hwritten out hout
      have hnext : Filled (ws ++ [(path, value)]) (place table done key value).1 := by
        rw [hsame]
        exact h.assign hbefore hout
      rw [List.append_cons] at ha ⊢
      obtain ⟨hfilled, hrest⟩ := ih hnext ha
      exact ⟨hfilled, noneBlocked_append.2 ⟨hfree, hrest⟩⟩

/-! ## Alike -/

/-- There is something at the start, at and above the paths of writes, and in what was written. -/
theorem Filled.isSome_at? (h : Filled ws ps) (path : Path) : ((object ps).at? path).isSome = true
    ↔ path = [] ∨ ∃ w ∈ ws, path <+: w.1
      ∨ ∃ sub, path = w.1 ++ sub ∧ (w.2.at? sub).isSome = true := by
  constructor
  · intro hsome
    by_cases hnil : path = []
    · exact .inl hnil
    · rcases path_cases ws path with ⟨w, hw, sub, rfl⟩ | ⟨-, ⟨w, hw, hpre⟩ | hnone⟩
      · rw [h.written w hw] at hsome
        exact .inr ⟨w, hw, .inr ⟨sub, rfl, hsome⟩⟩
      · exact .inr ⟨w, hw, .inl hpre⟩
      · rw [h.apart path hnil hnone] at hsome
        cases hsome
  · rintro (rfl | ⟨w, hw, hpre | ⟨sub, rfl, hsome⟩⟩)
    · rfl
    · by_cases hback : w.1 <+: path
      · obtain rfl : path = w.1 := hpre.eq_of_length_le hback.length_le
        have hat := h.written w hw []
        rw [List.append_nil] at hat
        rw [hat]
        rfl
      · obtain ⟨below, hb, heq⟩ := Path.exists_below_of_isPrefix hpre hback
        obtain ⟨es, hes⟩ := h.above w hw path below heq hb
        rw [hes]
        rfl
    · rwa [h.written w hw]

/-- Objects that none of the same writes put there as a whole have the same keys. -/
theorem Filled.keys_perm (h : Filled ws ps) (h' : Filled ws' ps') (hsame : ∀ w, w ∈ ws ↔ w ∈ ws')
    (hnot : ∀ w ∈ ws, ¬ w.1 <+: path) {es fs : Properties}
    (hes : (object ps).at? path = some (.object es))
    (hfs : (object ps').at? path = some (.object fs)) : (Table.keys es).Perm (Table.keys fs) := by
  have hnot' : ∀ w ∈ ws', ¬ w.1 <+: path := fun w hw => hnot w ((hsame w).2 hw)
  refine (List.perm_ext_iff_of_nodup (h.distinct path es hnot hes)
    (h'.distinct path fs hnot' hfs)).2 fun key => ?_
  have hkey : ∀ {qs entries : Properties}, (object qs).at? path = some (.object entries) →
      (key ∈ Table.keys entries ↔ ((object qs).at? (path ++ [key])).isSome = true) := by
    intro qs entries hat
    rw [← Table.get?_isSome_iff, at?_append, hat, Option.bind_some, at?_key]
  rw [hkey hes, hkey hfs, h.isSome_at?, h'.isSome_at?]
  simp only [hsame]

/-- Properties that are filled by the same writes are alike. -/
theorem Filled.alike (h : Filled ws ps) (h' : Filled ws' ps') (hsame : ∀ w, w ∈ ws ↔ w ∈ ws') :
    (object ps).Alike (object ps') := by
  intro path
  rcases path_cases ws path with ⟨w, hw, sub, rfl⟩ | ⟨hnot, habove⟩
  · rw [h.written w hw, h'.written w ((hsame w).1 hw)]
    exact rel_self _
  · have hobjects : ∀ {es fs : Properties}, (object ps).at? path = some (.object es) →
        (object ps').at? path = some (.object fs) →
        Option.Rel SameFace ((object ps).at? path) ((object ps').at? path) := by
      intro es fs hes hfs
      rw [hes, hfs]
      exact .some (.object (h.keys_perm h' hsame hnot hes hfs))
    by_cases hnil : path = []
    · subst hnil
      exact hobjects rfl rfl
    · rcases habove with ⟨w, hw, hpre⟩ | hnone
      · obtain ⟨below, hb, heq⟩ := Path.exists_below_of_isPrefix hpre (hnot w hw)
        obtain ⟨es, hes⟩ := h.above w hw path below heq hb
        obtain ⟨fs, hfs⟩ := h'.above w ((hsame w).1 hw) path below heq hb
        exact hobjects hes hfs
      · rw [h.apart path hnil hnone, h'.apart path hnil fun w hw => hnone w ((hsame w).2 hw)]
        exact .none

theorem keys_of_alike (h : (object ps).Alike (object ps')) :
    (Table.keys ps).Perm (Table.keys ps') := by
  obtain ⟨⟩ : Option.Rel SameFace (some (object ps)) (some (object ps')) := h []
  next hface =>
    cases hface with
    | same => exact .refl _
    | object hperm => exact hperm

theorem alike_insert (h : (object ps).Alike (object ps')) {key : Text} (hk : key ∉ Table.keys ps)
    (value : Property) :
    (object (Table.insert ps key value)).Alike (object (Table.insert ps' key value)) := by
  have hkeys := keys_of_alike h
  intro path
  cases path with
  | nil =>
    refine .some (.object ?_)
    rw [Table.keys_insert_of_not_mem ps value hk,
      Table.keys_insert_of_not_mem ps' value fun hm => hk (hkeys.mem_iff.2 hm)]
    exact hkeys.append_right [key]
  | cons k rest =>
    by_cases hkk : k = key
    · subst hkk
      rw [at?_insert_self, at?_insert_self]
      exact rel_self _
    · rw [at?_insert_of_ne ps hkk, at?_insert_of_ne ps' hkk]
      exact h (k :: rest)

/-- Defaults are added alike. -/
theorem alike_addDefaults {defaults : List (Text × Json)} {r r' : Properties × List Note}
    (ha : (object ps).Alike (object ps')) (h : addDefaults ps defaults = .ok r)
    (h' : addDefaults ps' defaults = .ok r') : (object r.1).Alike (object r'.1) := by
  induction defaults generalizing ps ps' r r' with
  | nil =>
    obtain rfl := Except.ok.inj h
    obtain rfl := Except.ok.inj h'
    exact ha
  | cons entry rest ih =>
    rw [addDefaults] at h h'
    by_cases hm : entry.1 ∈ Table.keys ps
    · rw [if_pos (Table.hasKey_iff.2 hm)] at h
      rw [if_pos (Table.hasKey_iff.2 ((keys_of_alike ha).mem_iff.1 hm))] at h'
      exact ih ha h h'
    · rw [if_neg fun hk => hm (Table.hasKey_iff.1 hk)] at h
      rw [if_neg fun hk => hm ((keys_of_alike ha).mem_iff.2 (Table.hasKey_iff.1 hk))] at h'
      obtain ⟨v, hv, h⟩ := exists_of_bind h
      obtain ⟨v', hv', h'⟩ := exists_of_bind h'
      obtain rfl : v = v' := Except.ok.inj (hv.symm.trans hv')
      obtain ⟨more, hmore, h⟩ := exists_of_bind h
      obtain ⟨more', hmore', h'⟩ := exists_of_bind h'
      obtain rfl := Except.ok.inj h
      obtain rfl := Except.ok.inj h'
      show (object more.1).Alike (object more'.1)
      exact ih (alike_insert ha hm v.1) hmore hmore'

theorem noneBlocked_addDefaults {defaults : List (Text × Json)} {r : Properties × List Note}
    (h : addDefaults ps defaults = .ok r) : NoneBlocked r.2 := by
  intro key head hm
  have hs := subject_addDefaults h _ hm
  cases hs

/-- Which defaults are added does not depend on the order of keys. -/
theorem missingAreShort_iff_of_alike (ha : (object ps).Alike (object ps')) (defaults : Table Json) :
    MissingAreShort ps defaults ↔ MissingAreShort ps' defaults := by
  unfold MissingAreShort
  simp only [(keys_of_alike ha).mem_iff]

/-- Properties are mapped alike in every order, if the places of those that have a value and a
modern place are apart from one another: there is a result in one order just if there is one in the
other, what comes out holds the same at every path but for the order of keys, and no value is turned
away. -/
theorem alike_of_perm (hm : m.Usable) {classic classic' : Properties} (hperm : classic.Perm classic')
    {modernType : Text}
    (ha : (writes (m.propertyTable modernType) classic).Pairwise
      fun w w' => Path.Apart w.1 w'.1) :
    (m.AddsShort classic modernType ↔ m.AddsShort classic' modernType)
      ∧ GivesIff (m.AddsShort classic modernType) (m.mapProperties classic modernType) fun r =>
        NoneBlocked r.2 ∧ ∃ r', m.mapProperties classic' modernType = .ok r' ∧ NoneBlocked r'.2
          ∧ (object r.1).Alike (object r'.1) := by
  have hk := hasKeyPaths_propertyTable hm modernType
  have hwrites : (writes (m.propertyTable modernType) classic).Perm
      (writes (m.propertyTable modernType) classic') := hperm.filterMap _
  have ha' := hwrites.pairwise ha fun h => h.symm
  obtain ⟨hfilled, hfree⟩ := filled_placeAll hk filled_nil ha
  obtain ⟨hfilled', hfree'⟩ := filled_placeAll hk filled_nil ha'
  have halike := hfilled.alike hfilled' fun w => hwrites.mem_iff
  have hshort := missingAreShort_iff_of_alike halike (m.defaultsFor modernType)
  refine ⟨hshort, ?_⟩
  rcases mapProperties_cases hm classic modernType with ⟨hs, ⟨mapped, notes⟩, hok⟩ | ⟨hl, herror⟩
  · rcases mapProperties_cases hm classic' modernType with ⟨-, ⟨mapped', notes'⟩, hok'⟩ | ⟨hl, -⟩
    · obtain ⟨added, hadded, rfl⟩ := mapProperties_eq hok
      obtain ⟨added', hadded', rfl⟩ := mapProperties_eq hok'
      have hfinal : (object mapped).Alike (object mapped') :=
        alike_addDefaults halike hadded hadded'
      exact .inl ⟨hs, _, hok, noneBlocked_append.2 ⟨hfree, noneBlocked_addDefaults hadded⟩, _, hok',
        noneBlocked_append.2 ⟨hfree', noneBlocked_addDefaults hadded'⟩, hfinal⟩
    · exact absurd (hshort.1 hs) hl
  · exact .inr ⟨hl, _, herror⟩

/-- A button with two corners of one object, a renamed and a new property, and one without a modern
place. -/
def filledButton : Properties :=
  [("RadiusTopLeft".toList, .int 8), ("Fill".toList, .formula "Red".toList),
    ("RadiusBottomLeft".toList, .int 2), ("Wrap".toList, .bool true),
    ("Border.Style".toList, .object [("Width".toList, .int 1)])]

theorem alike_of_perm_filledButton : builtIn.Usable ∧ filledButton.Perm filledButton.reverse
    ∧ (writes (builtIn.propertyTable "Button@0.0.45".toList) filledButton).Pairwise
        (fun w w' => Path.Apart w.1 w'.1)
    ∧ ∃ r, builtIn.mapProperties filledButton "Button@0.0.45".toList = .ok r ∧ NoneBlocked r.2
      ∧ ∃ r', builtIn.mapProperties filledButton.reverse "Button@0.0.45".toList = .ok r'
        ∧ NoneBlocked r'.2 ∧ (object r.1).Alike (object r'.1) := by
  have hperm : filledButton.Perm filledButton.reverse := (List.reverse_perm _).symm
  have ha : (writes (builtIn.propertyTable "Button@0.0.45".toList) filledButton).Pairwise
      fun w w' => Path.Apart w.1 w'.1 := by decide +kernel
  exact ⟨usable_builtIn, hperm, ha,
    (alike_of_perm usable_builtIn hperm ha).2.exists_ok (addsShort_builtIn _ _)⟩

end Mapping

end ModernControls
