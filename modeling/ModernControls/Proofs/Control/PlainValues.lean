import ModernControls.Control.Property
import ModernControls.Proofs.Outcomes

/-!
# Property values and plain values

A property value can be said as a plain one, and a plain value be taken for a property value. A
plain text does not say whether it is a formula, so a string that begins with an equality sign comes
back as one; nothing else is lost. A plain value that is taken for a property value comes back with
its formulas trimmed. Not every plain value is one: a list is not, and neither is a map with a list
somewhere in it.

Results:
- `ofEntry_toPlain_iff`: which property values come back from the plain ones they are said as;
- `ofEntry_error_iff`: which plain values are no property values, and what is said of them;
- `toPlain_of_ofEntry`: what a plain value comes back as;
- `ofPlain_toPlain`: all of this for values that stand by themselves.
-/

namespace ModernControls

open Yaml

/-- Whether the first character of a text that is no blank is an equality sign. -/
def Text.IsSigned (text : Text) : Prop := text.trimStart.head? = some formulaSign

instance (text : Text) : Decidable text.IsSigned := by
  unfold Text.IsSigned; infer_instance

namespace Property

variable {κ ι : Type}

mutual

/-- Whether no string in a value begins with an equality sign, blanks before it apart. -/
def IsUnsigned : Property κ → Prop
  | .string text _ => ¬ text.IsSigned
  | .object entries => AreUnsigned entries
  | _ => True

/-- Whether this is so in all entries. -/
def AreUnsigned : List (κ × Property κ) → Prop
  | [] => True
  | (_, value) :: rest => value.IsUnsigned ∧ AreUnsigned rest

end

end Property

namespace PlainValue

/-- Whether a value is another one or stands somewhere in the maps of it. -/
inductive Within (inner : PlainValue) : PlainValue → Prop
  | self : Within inner inner
  | entry {key value : PlainValue} {entries : List (PlainValue × PlainValue)} :
    (key, value) ∈ entries → Within inner value → Within inner (.map entries)

/-- Whether values of its kind are no property values. -/
def IsUnsupported : PlainValue → Prop
  | .bytes _ => True
  | .moment _ => True
  | .list _ => True
  | .tuple _ => True
  | .set _ => True
  | .foreign (.unknown ..) => True
  | _ => False

mutual

/-- A plain value with the blanks before its equality signs taken away. A property value in it is
the plain one that it is said as. -/
def tidied : PlainValue → PlainValue
  | .text text form => if text.IsSigned then .text text.trimStart .plain else .text text form
  | .map entries => .map (tidiedEntries entries)
  | .foreign (.property value) => value.toPlain
  | value => value

/-- The entries of a map with their values so. -/
def tidiedEntries : List (PlainValue × PlainValue) → List (PlainValue × PlainValue)
  | [] => []
  | (key, value) :: rest => (key, tidied value) :: tidiedEntries rest

end

end PlainValue

namespace Property

open PlainValue

/-! ## Texts -/

theorem ofPlainText_of_signed {text : Text} (h : text.IsSigned) (form : TextForm) :
    ofPlainText text form = .formula text.trimStart.tail := by
  obtain ⟨expression, he⟩ := List.head?_eq_some_iff.mp h
  simp [ofPlainText, he]

theorem ofPlainText_of_unsigned {text : Text} (h : ¬ text.IsSigned) (form : TextForm) :
    ofPlainText text form = .string text form := by
  rw [Text.IsSigned] at h
  cases ht : text.trimStart with
  | nil => simp [ofPlainText, ht]
  | cons c expression =>
    rw [ht] at h
    simp [ofPlainText, ht, show c ≠ formulaSign by simpa using h]

theorem ofPlainText_sign (expression : Text) (form : TextForm) :
    ofPlainText (formulaSign :: expression) form = .formula expression := by
  have htrim : Text.trimStart (formulaSign :: expression) = formulaSign :: expression := rfl
  rw [ofPlainText_of_signed (by rw [Text.IsSigned, htrim]; rfl), htrim]
  rfl

theorem ofPlainText_eq_string_iff (text : Text) (form : TextForm) :
    ofPlainText text form = .string text form ↔ ¬ text.IsSigned := by
  refine ⟨fun h hs => ?_, fun h => ofPlainText_of_unsigned h form⟩
  rw [ofPlainText_of_signed hs] at h
  cases h

/-! ## Keys -/

mutual

theorem toPlain_keyed : ∀ v : Property, v.keyed.toPlain = v.toPlain
  | .empty | .formula _ | .bool _ | .int _ | .float _ | .string .. => rfl
  | .object entries => congrArg Yaml.Tree.map (toPlainEntries_keyed entries)

theorem toPlainEntries_keyed : ∀ entries : List (Text × Property),
    toPlainEntries (mapEntryKeys PropertyKey.plain entries) = toPlainEntries entries
  | [] => rfl
  | (key, value) :: rest => by
    rw [mapEntryKeys, toPlainEntries, toPlainEntries_keyed rest]
    exact congrArg (fun v => (_, v) :: _) (toPlain_keyed value)

end

/-! ## There and back -/

theorem ofEntries_cons_ok_iff {key value : PlainValue} {rest : List (PlainValue × PlainValue)}
    {entries : List (PlainValue × Property PlainValue)} :
    ofEntries ((key, value) :: rest) = .ok entries ↔ ∃ first more, ofEntry value = .ok first
      ∧ ofEntries rest = .ok more ∧ entries = (key, first) :: more := by
  rw [ofEntries]
  cases ofEntry value <;> cases ofEntries rest <;> simp [bind, Except.bind, eq_comm]

mutual

theorem ofEntry_toPlain_iff : ∀ v : Property PlainValue, ofEntry v.toPlain = .ok v ↔ v.IsUnsigned
  | .empty => by simp [toPlain, ofEntry, IsUnsigned]
  | .formula e => by simp [toPlain, ofEntry, IsUnsigned, ofPlainText_sign]
  | .bool _ => by simp [toPlain, ofEntry, IsUnsigned]
  | .int _ => by simp [toPlain, ofEntry, IsUnsigned]
  | .float _ => by simp [toPlain, ofEntry, IsUnsigned]
  | .string t form => by simp [toPlain, ofEntry, IsUnsigned, ofPlainText_eq_string_iff]
  | .object entries => by
    rw [IsUnsigned, ← ofEntries_toPlain_iff entries, toPlain, ofEntry]
    cases ofEntries (toPlainEntries entries) <;> simp [Except.map]

theorem ofEntries_toPlain_iff : ∀ entries : List (PlainValue × Property PlainValue),
    ofEntries (toPlainEntries entries) = .ok entries ↔ AreUnsigned entries
  | [] => by simp [toPlainEntries, ofEntries, AreUnsigned]
  | (key, value) :: rest => by
    rw [AreUnsigned, ← ofEntry_toPlain_iff value, ← ofEntries_toPlain_iff rest, toPlainEntries,
      ofEntries_cons_ok_iff]
    constructor
    · rintro ⟨first, more, hv, hr, he⟩
      obtain ⟨rfl, rfl⟩ : value = first ∧ rest = more := by simpa using he
      exact ⟨hv, hr⟩
    · rintro ⟨hv, hr⟩
      exact ⟨value, rest, hv, hr, rfl⟩

end

mutual

theorem toPlain_of_ofEntry : ∀ (x : PlainValue) {v : Property PlainValue}, ofEntry x = .ok v →
    v.toPlain = tidied x
  | .null, _, h => by cases h; rfl
  | .bool _, _, h => by cases h; rfl
  | .int _, _, h => by cases h; rfl
  | .float _, _, h => by cases h; rfl
  | .foreign (.property value), _, h => by cases h; exact toPlain_keyed value
  | .foreign (.unknown ..), _, h => by cases h
  | .bytes _, _, h => by cases h
  | .moment _, _, h => by cases h
  | .list _, _, h => by cases h
  | .tuple _, _, h => by cases h
  | .set _, _, h => by cases h
  | .text t form, v, h => by
    obtain rfl : ofPlainText t form = v := Except.ok.inj h
    rw [tidied]
    split
    · next hs =>
      obtain ⟨expression, he⟩ := List.head?_eq_some_iff.mp hs
      rw [ofPlainText_of_signed hs, he]
      rfl
    · next hs =>
      rw [ofPlainText_of_unsigned hs]
      rfl
  | .map entries, v, h => by
    rw [ofEntry] at h
    obtain ⟨read, hread, rfl⟩ := exists_of_map h
    rw [toPlain, tidied, toPlainEntries_of_ofEntries entries hread]

theorem toPlainEntries_of_ofEntries : ∀ (entries : List (PlainValue × PlainValue))
    {read : List (PlainValue × Property PlainValue)}, ofEntries entries = .ok read →
      toPlainEntries read = tidiedEntries entries
  | [], _, h => by cases h; rfl
  | (key, value) :: rest, _, h => by
    obtain ⟨first, more, hv, hr, rfl⟩ := ofEntries_cons_ok_iff.mp h
    rw [toPlainEntries, tidiedEntries, toPlain_of_ofEntry value hv,
      toPlainEntries_of_ofEntries rest hr, PropertyKey.plain_plain]

end

/-! ## Values of other kinds -/

mutual

theorem within_of_ofEntry_error : ∀ (x : PlainValue) {u : Unsupported}, ofEntry x = .error u →
    ∃ y, Within y x ∧ IsUnsupported y ∧ u = ⟨y.typeName Foreign.typeName⟩
  | .null, _, h => by cases h
  | .bool _, _, h => by cases h
  | .int _, _, h => by cases h
  | .float _, _, h => by cases h
  | .text .., _, h => by cases h
  | .foreign (.property _), _, h => by cases h
  | .foreign (.unknown ..), _, h => by cases h; exact ⟨_, .self, trivial, rfl⟩
  | .bytes _, _, h => by cases h; exact ⟨_, .self, trivial, rfl⟩
  | .moment _, _, h => by cases h; exact ⟨_, .self, trivial, rfl⟩
  | .list _, _, h => by cases h; exact ⟨_, .self, trivial, rfl⟩
  | .tuple _, _, h => by cases h; exact ⟨_, .self, trivial, rfl⟩
  | .set _, _, h => by cases h; exact ⟨_, .self, trivial, rfl⟩
  | .map entries, u, h => by
    have hentries : ofEntries entries = .error u := by
      rw [ofEntry] at h
      cases he : ofEntries entries with
      | ok read => rw [he] at h; cases h
      | error e => rw [he] at h; rw [Except.error.inj h]
    obtain ⟨key, value, hmem, y, hy, hname⟩ := within_of_ofEntries_error entries hentries
    exact ⟨y, .entry hmem hy, hname⟩

theorem within_of_ofEntries_error : ∀ (entries : List (PlainValue × PlainValue)) {u : Unsupported},
    ofEntries entries = .error u → ∃ key value, (key, value) ∈ entries
      ∧ ∃ y, Within y value ∧ IsUnsupported y ∧ u = ⟨y.typeName Foreign.typeName⟩
  | [], _, h => by cases h
  | (key, value) :: rest, u, h => by
    cases hv : ofEntry value with
    | error e =>
      obtain rfl : e = u := by rw [ofEntries, hv] at h; exact Except.error.inj h
      exact ⟨key, value, .head _, within_of_ofEntry_error value hv⟩
    | ok first =>
      have hrest : ofEntries rest = .error u := by
        rw [ofEntries, hv] at h
        cases hr : ofEntries rest with
        | ok more => rw [hr] at h; cases h
        | error e => rw [hr] at h; rw [Except.error.inj h]
      obtain ⟨k, w, hmem, hw⟩ := within_of_ofEntries_error rest hrest
      exact ⟨k, w, .tail _ hmem, hw⟩

end

theorem ofEntry_of_isUnsupported {y : PlainValue} (h : IsUnsupported y)
    (v : Property PlainValue) :
    ofEntry y ≠ .ok v := by
  intro hv
  cases y with
  | foreign z => cases z with
    | property _ => exact h
    | unknown _ _ => cases hv
  | _ => first | exact h | cases hv

theorem exists_ofEntry_of_mem {key value : PlainValue} :
    ∀ {entries : List (PlainValue × PlainValue)} {read : List (PlainValue × Property PlainValue)},
      (key, value) ∈ entries → ofEntries entries = .ok read → ∃ v, ofEntry value = .ok v
  | _ :: _, _, hmem, h => by
    obtain ⟨first, more, hv, hr, -⟩ := ofEntries_cons_ok_iff.mp h
    cases hmem with
    | head => exact ⟨first, hv⟩
    | tail _ hmem => exact exists_ofEntry_of_mem hmem hr

/-- What is read has no value of another kind in it. -/
theorem not_isUnsupported_of_within {x y : PlainValue} (hy : Within y x)
    {v : Property PlainValue} (h : ofEntry x = .ok v) : ¬ IsUnsupported y := by
  induction hy generalizing v with
  | self => exact fun hu => ofEntry_of_isUnsupported hu v h
  | entry hmem _ ih =>
    rw [ofEntry] at h
    obtain ⟨read, hread, -⟩ := exists_of_map h
    obtain ⟨w, hw⟩ := exists_ofEntry_of_mem hmem hread
    exact ih hw

theorem ofEntry_error_iff (x : PlainValue) :
    (∃ u, ofEntry x = .error u) ↔ ∃ y, Within y x ∧ IsUnsupported y := by
  constructor
  · rintro ⟨u, hu⟩
    obtain ⟨y, hy, hkind, -⟩ := within_of_ofEntry_error x hu
    exact ⟨y, hy, hkind⟩
  · rintro ⟨y, hy, hkind⟩
    cases h : ofEntry x with
    | error u => exact ⟨u, rfl⟩
    | ok v => exact absurd hkind (not_isUnsupported_of_within hy h)

/-! ## Values by themselves -/

theorem ofPlain_eq_ofEntry {x : PlainValue} (h : x ≠ .null) : ofPlain x = ofEntry x := by
  cases x <;> first | rfl | exact absurd rfl h

theorem toPlain_ne_null {v : Property PlainValue} (h : v ≠ .empty) : v.toPlain ≠ .null := by
  cases v <;> simp_all [toPlain]

theorem ofPlain_toPlain_iff (v : Property PlainValue) :
    ofPlain v.toPlain = .ok v ↔ v ≠ .empty ∧ v.IsUnsigned := by
  by_cases h : v = .empty
  · subst h
    exact ⟨fun h => (nomatch h), fun h => absurd rfl h.1⟩
  · rw [ofPlain_eq_ofEntry (toPlain_ne_null h), ofEntry_toPlain_iff]
    exact ⟨fun hv => ⟨h, hv⟩, fun hv => hv.2⟩

theorem ofPlain_error_iff (x : PlainValue) :
    (∃ u, ofPlain x = .error u) ↔ x = .null ∨ ∃ y, Within y x ∧ IsUnsupported y := by
  by_cases h : x = .null
  · subst h
    exact ⟨fun _ => .inl rfl, fun _ => ⟨_, ofPlain_null⟩⟩
  · rw [ofPlain_eq_ofEntry h, ofEntry_error_iff, or_iff_right h]

/-- The value that an error is about is nothing by itself or of a kind that is no property value. -/
theorem typeName_of_ofPlain_error {x : PlainValue} {u : Unsupported} (h : ofPlain x = .error u) :
    ∃ y, Within y x ∧ (IsUnsupported y ∨ x = .null) ∧ u = ⟨y.typeName Foreign.typeName⟩ := by
  by_cases hx : x = .null
  · subst hx
    exact ⟨.null, .self, .inr rfl, (Except.error.inj h).symm⟩
  · rw [ofPlain_eq_ofEntry hx] at h
    obtain ⟨y, hy, hkind, hname⟩ := within_of_ofEntry_error x h
    exact ⟨y, hy, .inl hkind, hname⟩

theorem toPlain_of_ofPlain {x : PlainValue} {v : Property PlainValue} (h : ofPlain x = .ok v) :
    v.toPlain = tidied x := by
  by_cases hx : x = .null
  · subst hx
    cases h
  · exact toPlain_of_ofEntry x (ofPlain_eq_ofEntry hx ▸ h)

/-- A property value comes back from the plain one that it is said as, keys of any kind included,
unless a string in it begins with an equality sign. A plain value is no property value exactly if it
is nothing or a value in it is of another kind, which the error names; else it comes back tidied,
under the same keys. -/
theorem ofPlain_toPlain :
    (∀ v : Property PlainValue, ofPlain v.toPlain = .ok v ↔ v ≠ .empty ∧ v.IsUnsigned)
    ∧ (∀ x : PlainValue, (∃ u, ofPlain x = .error u)
      ↔ x = .null ∨ ∃ y, Within y x ∧ IsUnsupported y)
    ∧ (∀ (x : PlainValue) (u : Unsupported), ofPlain x = .error u → ∃ y, Within y x
      ∧ (IsUnsupported y ∨ x = .null) ∧ u = ⟨y.typeName Foreign.typeName⟩)
    ∧ ∀ (x : PlainValue) (v : Property PlainValue), ofPlain x = .ok v → v.toPlain = tidied x :=
  ⟨ofPlain_toPlain_iff, ofPlain_error_iff, fun _ _ => typeName_of_ofPlain_error,
    fun _ _ => toPlain_of_ofPlain⟩

/-- An object with an entry of every kind comes back, and so does a map under a number; a map with a
list in a map of it does not. -/
theorem ofPlain_toPlain_nested :
    let v : Property PlainValue := .object [(.text "A".toList .plain, .empty),
      (.bool false, .formula "  x\n".toList), (.text "C".toList .plain, .bool true),
      (.int 2, .object [(.null, .int 1), (.text "F".toList .plain, .formula []),
        (.int (-1), .string "a = b".toList .plain)])]
    let x : PlainValue := .map [(.int 1, .text " \n=1+1".toList .plain),
      (.text "1".toList .plain, .text " a".toList .plain)]
    let y : PlainValue := .map [(.text "A".toList .plain, x), (.text "B".toList .plain,
      .map [(.text "C".toList .plain, .list [])])]
    ofPlain v.toPlain = .ok v
      ∧ (∃ w, ofPlain x = .ok w ∧ w.toPlain = .map
        [(.int 1, .text "=1+1".toList .plain),
          (.text "1".toList .plain, .text " a".toList .plain)])
      ∧ ∃ u, ofPlain y = .error u := by
  intro v x y
  obtain ⟨hback, herror, -, htidied⟩ := ofPlain_toPlain
  refine ⟨(hback _).mpr ⟨by simp [v], ?_⟩, ⟨_, rfl, (htidied x _ rfl).trans ?_⟩,
    (herror _).mpr (.inr ⟨.list [], ?_, trivial⟩)⟩
  · simp only [v, IsUnsigned, AreUnsigned]
    decide
  · rfl
  · exact .entry (.tail _ (.head _)) (.entry (.head _) .self)

end Property

end ModernControls
