import ModernControls.Mapping.Path
import ModernControls.Proofs.Tables

/-!
# Writes along paths

What a write along a path leaves behind: below the path there is what was written, above it there
are objects, and elsewhere all is as it was. A write fails if and only if a value that is no object
stands above the path.

**What stands at a path (`Property.at?`).** Keys lead through objects one after the other. Other than
a look-up, this tells a key without a value from one that is missing.

**Opened keys (`Properties.Opens`).** The entries that a write goes on from under a key: those of the
object there, or none if there is no value.

Results:
- `assign_induction`: a successful write is a write under one key, or goes on below an opened key;
- `at?_assign`, `exists_object_of_assign`, `at?_assign_of_apart`: what stands where after a write;
- `assign_eq_none_iff`: when a write fails;
- `mem_keys_assign`: a write adds the first key of its path and no other.
-/
namespace ModernControls

namespace Path

/-- Whether neither of two paths leads to a place on the other or below it. -/
def Apart (p q : Path) : Prop := ¬ p <+: q ∧ ¬ q <+: p

theorem Apart.symm {p q : Path} (h : Apart p q) : Apart q p := ⟨h.2, h.1⟩

theorem apart_cons_self {key : Text} {p q : Path} :
    Apart (key :: p) (key :: q) ↔ Apart p q := by
  simp [Apart, List.cons_prefix_cons]

/-- A path that is apart from another leads somewhere, and so does the other. -/
theorem Apart.ne_nil {p q : Path} (h : Apart p q) : p ≠ [] ∧ q ≠ [] :=
  ⟨fun hp => h.1 (hp ▸ List.nil_prefix), fun hq => h.2 (hq ▸ List.nil_prefix)⟩

end Path

namespace Property

/-- Whether a value is there and is no object. -/
def isScalar : Property → Bool
  | .empty => false
  | .object _ => false
  | _ => true

/-- What stands at a path into a value, if the path leads somewhere. -/
def at? (value : Property) : Path → Option Property
  | [] => some value
  | key :: rest => match value with
    | .object entries => (Table.get? entries key).bind fun inner => at? inner rest
    | _ => none

theorem at?_cons (entries : Properties) (key : Text) (rest : Path) :
    (object entries).at? (key :: rest) = (Table.get? entries key).bind fun v => v.at? rest := rfl

theorem at?_key (entries : Properties) (key : Text) :
    (object entries).at? [key] = Table.get? entries key := by
  rw [at?_cons]
  cases Table.get? entries key <;> rfl

/-- Only objects have anything below them. -/
theorem at?_eq_none {value : Property} (h : value.isObject = false) {path : Path} (hp : path ≠ []) :
    value.at? path = none := by
  obtain ⟨key, rest, rfl⟩ := List.exists_cons_of_ne_nil hp
  cases value with
  | object entries => cases h
  | _ => rfl

theorem at?_append (value : Property) (p q : Path) :
    value.at? (p ++ q) = (value.at? p).bind fun inner => inner.at? q := by
  induction p generalizing value with
  | nil => rfl
  | cons key rest ih =>
    cases value with
    | object entries =>
      rw [List.cons_append, at?_cons, at?_cons, Option.bind_assoc]
      exact congrArg (Option.bind _) (funext ih)
    | _ => rfl

end Property

namespace Properties

open Property

variable {ps out : Properties} {value : Property} {path : Path}

/-- What a look-up finds is what stands there. -/
theorem lookup_eq (ps : Properties) {path : Path} (hp : path ≠ []) :
    lookup ps path = ((object ps).at? path).getD .empty := by
  induction path generalizing ps with
  | nil => exact absurd rfl hp
  | cons key rest ih =>
    cases rest with
    | nil => rw [at?_key]; rfl
    | cons key' rest =>
      rw [lookup.eq_3 _ _ _ (by simp), valueAt, at?_cons]
      cases Table.get? ps key with
      | none => rfl
      | some inner =>
        cases inner with
        | object entries => exact ih entries (by simp)
        | _ => rfl

/-! ## One write -/

/-- Whether a write below a key goes on from some entries. -/
def Opens (ps : Properties) (key : Text) (entries : Properties) : Prop :=
  valueAt ps key = .empty ∧ entries = [] ∨ valueAt ps key = .object entries

/-- What stands under an opened key. -/
theorem Opens.get? {key : Text} {entries : Properties} (h : Opens ps key entries) :
    (∀ inner ∈ Table.get? ps key, inner = .empty) ∧ entries = []
      ∨ Table.get? ps key = some (.object entries) := by
  unfold Opens valueAt at h
  cases hg : Table.get? ps key with
  | none =>
    rw [hg] at h
    rcases h with ⟨-, rfl⟩ | h
    · exact .inl ⟨fun _ hi => (nomatch hi), rfl⟩
    · cases h
  | some inner =>
    rw [hg] at h
    rcases h with ⟨h, rfl⟩ | h
    · exact .inl ⟨fun v hv => (Option.some.inj hv).symm.trans h, rfl⟩
    · exact .inr (congrArg some h)

/-- Below an opened key stands what stands in the entries. -/
theorem Opens.at? {key : Text} {entries : Properties} (h : Opens ps key entries) {path : Path}
    (hp : path ≠ []) : (object ps).at? (key :: path) = (object entries).at? path := by
  rw [at?_cons]
  rcases h.get? with ⟨hempty, rfl⟩ | hg
  · have hnone : (object []).at? path = none := by
      obtain ⟨key', rest, rfl⟩ := List.exists_cons_of_ne_nil hp
      rfl
    rw [hnone, Option.bind_eq_none_iff]
    intro inner hi
    rw [hempty inner hi]
    exact at?_eq_none rfl hp
  · rw [hg]
    rfl

/-- A key that holds no scalar can be opened. -/
theorem exists_opens {key : Text} (h : (valueAt ps key).isScalar = false) :
    ∃ entries, Opens ps key entries := by
  cases hv : valueAt ps key with
  | empty => exact ⟨[], .inl ⟨hv, rfl⟩⟩
  | object entries => exact ⟨entries, .inr hv⟩
  | _ => rw [hv] at h; cases h

theorem assign_cons_of_opens {key : Text} {rest : Path} (hr : rest ≠ []) {entries : Properties}
    (h : Opens ps key entries) (value : Property) : assign ps value (key :: rest)
      = (assign entries value rest).map fun inner => Table.insert ps key (.object inner) := by
  rw [assign.eq_3 _ _ _ _ (by simpa using hr)]
  rcases h with ⟨h, rfl⟩ | h
  · rw [h]
  · rw [h]

theorem assign_cons_of_isScalar {key : Text} {rest : Path} (hr : rest ≠ [])
    (h : (valueAt ps key).isScalar = true) (value : Property) :
    assign ps value (key :: rest) = none := by
  rw [assign.eq_3 _ _ _ _ (by simpa using hr)]
  split
  · next he => rw [he] at h; cases h
  · next he => rw [he] at h; cases h
  · rfl

/-- What holds of writes under one key, and of a write below a key if it holds of the write inside,
holds of every write that succeeds. -/
theorem assign_induction {P : Properties → Path → Properties → Prop}
    (single : ∀ ps key, P ps [key] (Table.insert ps key value))
    (deep : ∀ ps key rest entries inner, rest ≠ [] → Opens ps key entries →
      P entries rest inner → P ps (key :: rest) (Table.insert ps key (.object inner)))
    (h : assign ps value path = some out) : P ps path out := by
  induction path generalizing ps out with
  | nil => cases h
  | cons key rest ih =>
    by_cases hr : rest = []
    · subst hr
      obtain rfl := Option.some.inj h
      exact single ps key
    · cases hs : (valueAt ps key).isScalar with
      | true => rw [assign_cons_of_isScalar hr hs] at h; cases h
      | false =>
        obtain ⟨entries, ho⟩ := exists_opens hs
        rw [assign_cons_of_opens hr ho] at h
        obtain ⟨inner, hi, rfl⟩ := Option.map_eq_some_iff.1 h
        exact deep ps key rest entries inner hr ho (ih hi)

/-! ## What stands where -/

theorem at?_insert_self (ps : Properties) (key : Text) (v : Property) (rest : Path) :
    (object (Table.insert ps key v)).at? (key :: rest) = v.at? rest := by
  rw [at?_cons, Table.get?_insert_self]
  rfl

theorem at?_insert_of_ne (ps : Properties) {key key' : Text} (h : key' ≠ key) (v : Property)
    (rest : Path) :
    (object (Table.insert ps key v)).at? (key' :: rest) = (object ps).at? (key' :: rest) := by
  rw [at?_cons, at?_cons, Table.get?_insert_of_ne ps v h]

/-- Below the path of a write stands what was written. -/
theorem at?_assign (h : assign ps value path = some out) (sub : Path) :
    (object out).at? (path ++ sub) = value.at? sub := by
  refine assign_induction (P := fun _ path out => (object out).at? (path ++ sub) = value.at? sub)
    ?_ ?_ h
  · intro ps key
    exact at?_insert_self ps key value sub
  · intro ps key rest entries inner _ _ ih
    exact (at?_insert_self ps key (.object inner) (rest ++ sub)).trans ih

/-- Above the path of a write stand objects. -/
theorem exists_object_of_assign (h : assign ps value path = some out) {above below : Path}
    (hp : path = above ++ below) (hb : below ≠ []) :
    ∃ entries, (object out).at? above = some (.object entries) := by
  refine assign_induction (P := fun _ path out => ∀ above, path = above ++ below →
    ∃ entries, (object out).at? above = some (.object entries)) ?_ ?_ h above hp
  · intro ps key above hp
    cases above with
    | nil => exact ⟨_, rfl⟩
    | cons k above =>
      obtain ⟨-, hnil⟩ := List.cons.inj hp
      exact absurd (List.append_eq_nil_iff.1 hnil.symm).2 hb
  · intro ps key rest entries inner _ _ ih above hp
    cases above with
    | nil => exact ⟨_, rfl⟩
    | cons k above =>
      obtain ⟨rfl, hrest⟩ := List.cons.inj hp
      rw [at?_insert_self]
      exact ih above hrest

/-- Elsewhere a write leaves all as it was. -/
theorem at?_assign_of_apart (h : assign ps value path = some out) {other : Path}
    (ha : Path.Apart path other) : (object out).at? other = (object ps).at? other := by
  refine assign_induction (P := fun ps path out => ∀ other, Path.Apart path other →
    (object out).at? other = (object ps).at? other) ?_ ?_ h other ha
  · intro ps key other ha
    obtain ⟨k, rest, rfl⟩ := List.exists_cons_of_ne_nil ha.ne_nil.2
    by_cases hk : k = key
    · subst hk
      exact absurd List.nil_prefix (Path.apart_cons_self.1 ha).1
    · exact at?_insert_of_ne ps hk value rest
  · intro ps key rest entries inner _ ho ih other ha
    obtain ⟨k, others, rfl⟩ := List.exists_cons_of_ne_nil ha.ne_nil.2
    by_cases hk : k = key
    · subst hk
      have hinner := Path.apart_cons_self.1 ha
      rw [at?_insert_self, ih others hinner, ho.at? hinner.ne_nil.2]
    · exact at?_insert_of_ne ps hk _ others

/-! ## Where a write fails -/

/-- A write fails if and only if it has no path, or a value that is no object stands above its
path. The induction is on the path; a key that holds no scalar is opened, and what stands below it
stands in the opened entries. -/
theorem assign_eq_none_iff : assign ps value path = none
    ↔ path = [] ∨ ∃ above below u, path = above ++ below ∧ above ≠ [] ∧ below ≠ []
      ∧ (object ps).at? above = some u ∧ u.isScalar = true := by
  induction path generalizing ps with
  | nil => simp [assign]
  | cons key rest ih =>
    by_cases hr : rest = []
    · subst hr
      constructor
      · intro h
        cases h
      · rintro (h | ⟨above, below, u, hp, ha, hb, -, -⟩)
        · cases h
        · have hlength := congrArg List.length hp
          have habove := List.length_pos_iff.2 ha
          have hbelow := List.length_pos_iff.2 hb
          simp only [List.length_append, List.length_cons, List.length_nil] at hlength
          omega
    · cases hs : (valueAt ps key).isScalar with
      | true =>
        refine iff_of_true (assign_cons_of_isScalar hr hs value) (.inr ?_)
        refine ⟨[key], rest, valueAt ps key, rfl, List.cons_ne_nil _ _, hr, ?_, hs⟩
        rw [at?_key]
        unfold valueAt at hs ⊢
        cases hg : Table.get? ps key with
        | none => rw [hg] at hs; cases hs
        | some v => rfl
      | false =>
        obtain ⟨entries, ho⟩ := exists_opens hs
        rw [assign_cons_of_opens hr ho, Option.map_eq_none_iff, ih]
        constructor
        · rintro (h | ⟨above, below, u, rfl, ha, hb, hat, hu⟩)
          · exact absurd h hr
          · exact .inr ⟨key :: above, below, u, rfl, List.cons_ne_nil _ _, hb, (ho.at? ha).trans hat,
              hu⟩
        · rintro (h | ⟨above, below, u, hp, ha, hb, hat, hu⟩)
          · cases h
          · obtain ⟨k, above, rfl⟩ := List.exists_cons_of_ne_nil ha
            obtain ⟨rfl, rfl⟩ := List.cons.inj hp
            by_cases hn : above = []
            · subst hn
              rw [at?_key] at hat
              have hv : valueAt ps key = u := by rw [valueAt, hat]; rfl
              rw [hv, hu] at hs
              cases hs
            · exact .inr ⟨above, below, u, rfl, hn, hb, (ho.at? hn).symm.trans hat, hu⟩

/-! ## Keys -/

/-- A write adds the first key of its path and no other. -/
theorem mem_keys_assign (h : assign ps value path = some out) {key : Text} :
    key ∈ Table.keys out ↔ key ∈ Table.keys ps ∨ path.head? = some key := by
  refine assign_induction (P := fun ps path out =>
    key ∈ Table.keys out ↔ key ∈ Table.keys ps ∨ path.head? = some key) ?_ ?_ h
  · intro ps k
    rw [Table.mem_keys_insert, List.head?_cons, Option.some.injEq, eq_comm (a := k)]
  · intro ps k rest entries inner _ _ _
    rw [Table.mem_keys_insert, List.head?_cons, Option.some.injEq, eq_comm (a := k)]

end Properties

end ModernControls
