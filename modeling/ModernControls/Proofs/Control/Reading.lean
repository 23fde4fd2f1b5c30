import ModernControls.Proofs.Control.WellFormed
import ModernControls.Proofs.Decimal.Digits
import ModernControls.Proofs.Outcomes
import ModernControls.Proofs.Yaml.Genuine

/-!
# Documents that are read

What is read is well-formed. A key that is no text never becomes the key of the type or of the
properties, so what is read as a further part has a further key.

Results:
- `wellFormed_of_classify`, `normal_of_normalize`: values and further parts are well-formed;
- `Control.wellFormed_of_read`: so are controls that repeat no key and whose type can stand by
  itself;
- `Document.wellFormed_of_parse`: and documents of such controls.
-/
namespace ModernControls

open Yaml

/-- Whether a tree is one that a text is read as. -/
abbrev IsRead (tree : PlainValue) : Prop := tree.Genuine fun _ => False

namespace Property

mutual

theorem wellFormed_of_classify : ∀ (value : PlainValue) {path : Text} {p : Property}, IsRead value →
    classify path value = .ok p → p.WellFormed
  | .null, _, _, _, h => by obtain rfl := Except.ok.inj h; trivial
  | .bool _, _, _, _, h => by obtain rfl := Except.ok.inj h; trivial
  | .int _, _, _, _, h => by obtain rfl := Except.ok.inj h; trivial
  | .float _, _, _, hr, h => by obtain rfl := Except.ok.inj h; exact hr
  | .text t form, _, _, _, h => by
    obtain rfl := Except.ok.inj h
    exact wellFormed_classifyText t form
  | .map entries, path, _, hr, h => by
    obtain ⟨es, hes, rfl⟩ := exists_of_map h
    exact ⟨Table.nodup_ofEntries es,
      wellFormedEntries_ofEntries (wellFormed_of_classifyEntries entries hr hes)⟩
  | .bytes _, _, _, _, h => nomatch h
  | .moment _, _, _, _, h => nomatch h
  | .list _, _, _, _, h => nomatch h
  | .tuple _, _, _, _, h => nomatch h
  | .set _, _, _, _, h => nomatch h
  | .foreign _, _, _, _, h => nomatch h

theorem wellFormed_of_classifyEntries : ∀ (entries : List (PlainValue × PlainValue)) {path : Text}
    {es : List (Text × Property)}, Yaml.Tree.GenuineEntries (fun _ => False) entries →
      classifyEntries path entries = .ok es → WellFormedEntries es
  | [], _, _, _, h => by obtain rfl := Except.ok.inj h; trivial
  | (key, value) :: rest, _, _, hr, h => by
    obtain ⟨name, -, h⟩ := exists_of_bind h
    obtain ⟨p, hp, h⟩ := exists_of_bind h
    obtain ⟨es, hes, h⟩ := exists_of_bind h
    obtain rfl := Except.ok.inj h
    exact ⟨wellFormed_of_classify value hr.2.1 hp, wellFormed_of_classifyEntries rest hr.2.2 hes⟩

end

end Property

namespace Control

/-- Entries whose keys are texts without a form are those of a table of texts. -/
theorem exists_ofTexts {entries : List (PlainValue × PlainValue)} (h : NormalEntries entries) :
    ∃ es : List (Text × PlainValue), entries = Yaml.Tree.ofTexts es ∧ ∀ e ∈ es, Normal e.2 := by
  induction entries with
  | nil => exact ⟨[], rfl, fun _ he => nomatch he⟩
  | cons e rest ih =>
    obtain ⟨key, value⟩ := e
    obtain ⟨⟨k, rfl⟩, hv, hrest⟩ := h
    obtain ⟨es, rfl, hes⟩ := ih hrest
    exact ⟨(k, value) :: es, rfl, fun e he => (List.mem_cons.1 he).elim (fun h => h ▸ hv) (hes e)⟩

theorem normalEntries_ofTexts {es : List (Text × PlainValue)} (h : ∀ e ∈ es, Normal e.2) :
    NormalEntries (Yaml.Tree.ofTexts es) := by
  induction es with
  | nil => trivial
  | cons e rest ih =>
    exact ⟨⟨e.1, rfl⟩, h e List.mem_cons_self, ih fun e he => h e (List.mem_cons_of_mem _ he)⟩

theorem normal_ofEntries {entries : List (PlainValue × PlainValue)} (h : NormalEntries entries) :
    Normal (Yaml.Tree.ofEntries entries) := by
  obtain ⟨es, rfl, hes⟩ := exists_ofTexts h
  rw [Yaml.Tree.ofEntries_texts]
  refine ⟨?_, normalEntries_ofTexts fun e he => hes e (Table.of_mem_ofEntries he)⟩
  have hkeys : (Yaml.Tree.ofTexts (Table.ofEntries es)).map (·.1.keyText)
      = Table.keys (Table.ofEntries es) := by
    rw [Yaml.Tree.ofTexts, List.map_map]
    rfl
  rw [hkeys]
  exact Table.nodup_ofEntries es

mutual

theorem normal_of_normalize : ∀ (value : PlainValue) {v : PlainValue}, IsRead value →
    normalize value = .ok v → Normal v
  | .null, _, _, h => by obtain rfl := Except.ok.inj h; trivial
  | .bool _, _, _, h => by obtain rfl := Except.ok.inj h; trivial
  | .int _, _, _, h => by obtain rfl := Except.ok.inj h; trivial
  | .float _, _, hr, h => by obtain rfl := Except.ok.inj h; exact hr
  | .bytes _, _, _, h => by obtain rfl := Except.ok.inj h; trivial
  | .moment _, _, _, h => by obtain rfl := Except.ok.inj h; trivial
  | .tuple _, _, _, h => by obtain rfl := Except.ok.inj h; trivial
  | .set _, _, _, h => by obtain rfl := Except.ok.inj h; trivial
  | .foreign _, _, hr, _ => hr.elim
  | .text t form, _, _, h => by
    obtain rfl := Except.ok.inj h
    cases hf : Property.formula? t form with
    | some e => exact ⟨e, rfl⟩
    | none => exact rfl
  | .list items, _, hr, h => by
    obtain ⟨is, his, rfl⟩ := exists_of_map h
    exact normal_of_normalizeItems items hr his
  | .map entries, _, hr, h => by
    obtain ⟨es, hes, rfl⟩ := exists_of_map h
    exact normal_ofEntries (normal_of_normalizeEntries entries hr hes)

theorem normal_of_normalizeItems : ∀ (items : List PlainValue) {is : List PlainValue},
    Yaml.Tree.GenuineItems (fun _ => False) items → normalizeItems items = .ok is → NormalItems is
  | [], _, _, h => by obtain rfl := Except.ok.inj h; trivial
  | item :: rest, _, hr, h => by
    obtain ⟨i, hi, h⟩ := exists_of_bind h
    obtain ⟨is, his, h⟩ := exists_of_bind h
    obtain rfl := Except.ok.inj h
    exact ⟨normal_of_normalize item hr.1 hi, normal_of_normalizeItems rest hr.2 his⟩

theorem normal_of_normalizeEntries : ∀ (entries : List (PlainValue × PlainValue))
    {es : List (PlainValue × PlainValue)}, Yaml.Tree.GenuineEntries (fun _ => False) entries →
      normalizeEntries entries = .ok es → NormalEntries es
  | [], _, _, h => by obtain rfl := Except.ok.inj h; trivial
  | (key, value) :: rest, _, hr, h => by
    obtain ⟨name, -, h⟩ := exists_of_bind h
    obtain ⟨v, hv, h⟩ := exists_of_bind h
    obtain ⟨es, hes, h⟩ := exists_of_bind h
    obtain rfl := Except.ok.inj h
    exact ⟨⟨name, rfl⟩, normal_of_normalize value hr.2.1 hv, normal_of_normalizeEntries rest hr.2.2 hes⟩

end

/-! ## Keys -/

/-- The keys of the type and of the properties hold this letter, and no word for a value that is no
text does, but for bytes, which begin with another one. -/
def ownLetter : Char := 't'

theorem ne_own {t : Text} (h : ownLetter ∉ t) : t ≠ typeKey ∧ t ≠ propertiesKey :=
  ⟨fun he => h (he ▸ by decide), fun he => h (he ▸ by decide)⟩

theorem not_mem_digits_own {n : Nat} : ownLetter ∉ Text.ofNat n := fun h =>
  forall_digit (P := fun c => c ≠ ownLetter) (by decide) (isAsciiDigit_of_mem_ofNat h) rfl

theorem not_mem_ofInt (n : Int) : ownLetter ∉ Text.ofInt n := by
  rw [Text.ofInt]
  split
  · simpa [ownLetter] using not_mem_digits_own
  · exact not_mem_digits_own

theorem not_mem_layOut {digits : Text} (h : ownLetter ∉ digits) (power : Int) :
    ownLetter ∉ Binary64.layOut digits power := by
  have hzeros : ∀ k, ownLetter ∉ List.replicate k '0' := fun k hm =>
    absurd (List.mem_replicate.1 hm).2 (by decide)
  have hpoint : ownLetter ≠ '.' ∧ ownLetter ≠ '0' ∧ ownLetter ≠ 'e' ∧ ownLetter ≠ '-'
    ∧ ownLetter ≠ '+' := by decide
  obtain ⟨h1, h2, h3, h4, h5⟩ := hpoint
  rw [Binary64.layOut.eq_def]
  dsimp only
  split
  · split
    · simp [h, h1, h2, hzeros]
    · split
      · simp [h, h1, h2, hzeros]
      · have ht : ownLetter ∉ digits.take (power + digits.length).toNat :=
          fun hm => h (List.mem_of_mem_take hm)
        have hd : ownLetter ∉ digits.drop (power + digits.length).toNat :=
          fun hm => h (List.mem_of_mem_drop hm)
        simp [h1, ht, hd]
  · have hsign : ownLetter ≠ (if power + digits.length - 1 < 0 then '-' else '+') := by
      split
      · exact h4
      · exact h5
    have hsize : ownLetter ∉ (if (Text.ofNat (power + digits.length - 1).natAbs).length < 2 then
        '0' :: Text.ofNat (power + digits.length - 1).natAbs
        else Text.ofNat (power + digits.length - 1).natAbs) := by
      split
      · simp [h2, not_mem_digits_own]
      · exact not_mem_digits_own
    simp only [List.mem_append, List.mem_cons, List.not_mem_nil, or_false, not_or]
    refine ⟨⟨?_, h3, hsign⟩, hsize⟩
    split
    · exact h
    · simpa [h1] using h
    · simp

theorem not_mem_float (x : Binary64) : ownLetter ∉ x.text .short := by
  cases x with
  | nan => decide
  | infinite negative => cases negative <;> decide
  | finite negative m e =>
    have hbody : ownLetter ∉ (if m = 0 then "0.0".toList else
        Binary64.layOut (Binary64.withoutTrailingZeros (Text.ofNat (Binary64.shortest m e).1)
          (Binary64.shortest m e).2).1 (Binary64.withoutTrailingZeros
            (Text.ofNat (Binary64.shortest m e).1) (Binary64.shortest m e).2).2) := by
      split
      · decide
      · exact not_mem_layOut (fun hm => not_mem_digits_own (List.mem_of_mem_take hm)) _
    rw [Binary64.text]
    split
    · exact fun hm => hbody ((List.mem_cons.1 hm).resolve_left (by decide))
    · exact hbody

theorem ne_own_of_head {t : Text} (h : t.head? ≠ some 'C' ∧ t.head? ≠ some 'P') :
    t ≠ typeKey ∧ t ≠ propertiesKey :=
  ⟨fun he => h.1 (he ▸ by decide), fun he => h.2 (he ▸ by decide)⟩

/-- A moment begins with a digit of its year. -/
theorem moment_ne_own (m : Moment) : m.text [' '] ≠ typeKey ∧ m.text [' '] ≠ propertiesKey := by
  obtain ⟨rest, hrest⟩ : ∃ rest, m.text [' '] = Moment.padded 4 m.year ++ rest := by
    rw [Moment.text]
    split
    · exact ⟨_, List.append_assoc _ _ _⟩
    · simp only [List.append_assoc]
      exact ⟨_, rfl⟩
  have hdigit : ∀ c ∈ Moment.padded 4 m.year, isAsciiDigit c = true := by
    intro c hc
    rcases List.mem_append.1 hc with hc | hc
    · obtain ⟨-, rfl⟩ := List.mem_replicate.1 hc
      decide
    · exact isAsciiDigit_of_mem_ofNat hc
  obtain ⟨c, r, hc⟩ := List.exists_cons_of_ne_nil (l := Moment.padded 4 m.year) (by
    simp [Moment.padded, ofNat_ne_nil])
  have hne := forall_digit (P := fun c => c ≠ 'C' ∧ c ≠ 'P') (by decide)
    (hdigit c (hc ▸ List.mem_cons_self))
  refine ne_own_of_head ?_
  rw [hrest, hc]
  simpa using hne

/-- A key that is no text never becomes the key of the type or of the properties. -/
theorem keyText_ne_own {key : PlainValue} (h : ∀ t form, key ≠ .text t form) :
    key.keyText ≠ typeKey ∧ key.keyText ≠ propertiesKey := by
  cases key with
  | text t form => exact absurd rfl (h t form)
  | bool b => cases b <;> exact ne_own (by decide)
  | int n => exact ne_own (not_mem_ofInt n)
  | float x => exact ne_own (not_mem_float x)
  | bytes b => exact ne_own_of_head ⟨by simp [Yaml.Tree.keyText, Yaml.Tree.shownBytes],
      by simp [Yaml.Tree.keyText, Yaml.Tree.shownBytes]⟩
  | moment m => exact moment_ne_own m
  | null => exact ne_own (by decide)
  | _ => exact ne_own List.not_mem_nil

theorem isOwnKey_eq (key : PlainValue) : isOwnKey key = !isFurtherKey key.keyText := by
  by_cases h : ∃ t form, key = .text t form
  · obtain ⟨t, form, rfl⟩ := h
    show isOwnKey (.text t form) = !isFurtherKey t
    simp [isOwnKey, isFurtherKey]
  · have hne := keyText_ne_own fun t form he => h ⟨t, form, he⟩
    have hown : isOwnKey key = false := by
      cases key with
      | text t form => exact absurd ⟨t, form, rfl⟩ h
      | _ => rfl
    rw [hown, isFurtherKey]
    simp [hne.1, hne.2]

theorem eq_keyText_of_keyName {key : PlainValue} {name : Text} (h : keyName key = .ok name) :
    name = key.keyText := by
  rw [keyName, Yaml.Tree.keyText?] at h
  cases hlong : key.isLong with
  | true => rw [hlong] at h; cases h
  | false => rw [hlong] at h; exact (Except.ok.inj h).symm

/-! ## Controls -/

variable {entries : List (PlainValue × PlainValue)}

theorem mem_of_lookup {key : Text} {value : PlainValue}
    (h : Yaml.Tree.lookup entries key = some value) :
    ∃ e ∈ entries, e.1.keyText = key ∧ e.2 = value := by
  induction entries with
  | nil => cases h
  | cons e rest ih =>
    obtain ⟨k, v⟩ := e
    have hrest : Yaml.Tree.lookup rest key = some value →
        ∃ e ∈ (k, v) :: rest, e.1.keyText = key ∧ e.2 = value := fun h => by
      obtain ⟨e, he, hk⟩ := ih h
      exact ⟨e, List.mem_cons_of_mem _ he, hk⟩
    cases k with
    | text t form =>
      rw [Yaml.Tree.lookup] at h
      split at h
      · next heq => exact ⟨_, List.mem_cons_self, heq, Option.some.inj h⟩
      · exact hrest h
    | _ => exact hrest h

/-- What is read as further parts stands under the further keys. -/
theorem extras_of_read {es : List (Text × PlainValue)}
    (hr : Yaml.Tree.GenuineEntries (fun _ => False) entries) (h : extrasOf entries = .ok es) :
    es.map (·.1) = (entries.map fun e => e.1.keyText).filter isFurtherKey ∧ ∀ e ∈ es, Normal e.2 := by
  induction entries generalizing es with
  | nil =>
    obtain rfl := Except.ok.inj h
    exact ⟨rfl, fun _ he => nomatch he⟩
  | cons e rest ih =>
    obtain ⟨key, value⟩ := e
    rw [extrasOf, isOwnKey_eq] at h
    by_cases hk : isFurtherKey key.keyText = true
    · rw [hk] at h
      simp only [Bool.not_true, Bool.false_eq_true, if_false] at h
      obtain ⟨name, hname, h⟩ := exists_of_bind h
      obtain ⟨v, hv, h⟩ := exists_of_bind h
      obtain ⟨is, his, h⟩ := exists_of_bind h
      obtain rfl := Except.ok.inj h
      obtain ⟨hkeys, hnormal⟩ := ih hr.2.2 his
      refine ⟨?_, fun e he => ?_⟩
      · rw [List.map_cons, List.map_cons, List.filter_cons_of_pos hk, hkeys,
          eq_keyText_of_keyName hname]
      · rcases List.mem_cons.1 he with rfl | he
        · exact normal_of_normalize value hr.2.1 hv
        · exact hnormal e he
    · rw [Bool.eq_false_iff.2 hk] at h
      rw [List.map_cons, List.filter_cons_of_neg hk]
      exact ih hr.2.2 h

/-- Properties are read as a table of well-formed values, or as nothing. -/
theorem properties_of_read {name : Text} {value : Option PlainValue} {properties : Properties}
    (hr : ∀ v ∈ value, IsRead v) (h : propertiesOf name value = .ok properties) :
    (properties.map (·.1)).Nodup ∧ Property.WellFormedEntries properties := by
  rw [propertiesOf.eq_def] at h
  split at h
  · obtain rfl := Except.ok.inj h
    exact ⟨List.nodup_nil, trivial⟩
  · obtain rfl := Except.ok.inj h
    exact ⟨List.nodup_nil, trivial⟩
  · next es =>
    obtain ⟨ps, hps, rfl⟩ := exists_of_map h
    exact ⟨Table.nodup_ofEntries ps, Property.wellFormedEntries_ofEntries
      (Property.wellFormed_of_classifyEntries es (hr _ rfl) hps)⟩
  · cases h

theorem mem_keyTexts_of_lookup {key : Text} {value : PlainValue}
    (h : Yaml.Tree.lookup entries key = some value) : key ∈ entries.map fun e => e.1.keyText := by
  obtain ⟨e, he, hkey, -⟩ := mem_of_lookup h
  exact List.mem_map.2 ⟨e, he, hkey⟩

/-- Without a key for them there are no properties. -/
theorem properties_of_not_mem {name : Text} {properties : Properties}
    (h : propertiesOf name (Yaml.Tree.lookup entries propertiesKey) = .ok properties)
    (hno : propertiesKey ∉ entries.map fun e => e.1.keyText) : properties = [] := by
  cases hlookup : Yaml.Tree.lookup entries propertiesKey with
  | none =>
    rw [hlookup] at h
    exact (Except.ok.inj h).symm
  | some v => exact absurd (mem_keyTexts_of_lookup hlookup) hno

/-- What a control is read from. -/
theorem parts_of_ofEntries {name : Text} {c : Control} (h : ofEntries name entries = .ok c) :
    ∃ value tag properties extras, Yaml.Tree.lookup entries typeKey = some value
      ∧ propertiesOf name (Yaml.Tree.lookup entries propertiesKey) = .ok properties
      ∧ extrasOf entries = .ok extras
      ∧ c = ⟨TypeToken.unwrapped tag, properties, Table.ofEntries extras,
        entries.map fun e => e.1.keyText⟩ := by
  rw [ofEntries] at h
  split at h
  · cases h
  · next value hvalue =>
    obtain ⟨tag, -, h⟩ := exists_of_bind h
    obtain ⟨properties, hproperties, h⟩ := exists_of_bind h
    obtain ⟨extras, hextras, h⟩ := exists_of_bind h
    exact ⟨value, tag, properties, extras, hvalue, hproperties, hextras, (Except.ok.inj h).symm⟩

/-- Only a map is read as a control. -/
theorem exists_of_ofTree {name : Text} {tree : PlainValue} {c : Control}
    (h : Control.ofTree name tree = .ok c) :
    ∃ entries, tree = .map entries ∧ ofEntries name entries = .ok c := by
  rw [Control.ofTree.eq_def] at h
  split at h
  · next entries => exact ⟨entries, rfl, h⟩
  · cases h

/-- A control that is read is well-formed if it repeats no key and its type can stand by itself. -/
theorem wellFormed_of_read {name : Text} {tree : PlainValue} {c : Control} (hr : IsRead tree)
    (h : Control.ofTree name tree = .ok c) (hkeys : c.keyOrder.Nodup)
    (hunwrapped : TypeToken.unwrapped c.typeTag = c.typeTag)
    (hnonblank : c.typeTag.isAllBlank = false) : c.WellFormed := by
  obtain ⟨entries, rfl, h⟩ := exists_of_ofTree h
  have hentries : Yaml.Tree.GenuineEntries (fun _ => False) entries := hr
  obtain ⟨value, tag, properties, extras, hvalue, hproperties, hextras, rfl⟩ := parts_of_ofEntries h
  obtain ⟨hextrakeys, hnormal⟩ := extras_of_read hentries hextras
  have hpart : ∀ v ∈ Yaml.Tree.lookup entries propertiesKey, IsRead v := fun v hv => by
    obtain ⟨e, he, -, rfl⟩ := mem_of_lookup hv
    exact (Yaml.Tree.genuineEntries_iff.1 hentries e he).2
  obtain ⟨hdistinct, hvalues⟩ := properties_of_read hpart hproperties
  have hnodup : (extras.map (·.1)).Nodup := hextrakeys ▸ hkeys.filter _
  exact {
    keys := hkeys
    typed := mem_keyTexts_of_lookup hvalue
    extras := by rw [Table.ofEntries_of_nodup hnodup]; exact hextrakeys
    properties := properties_of_not_mem hproperties
    unwrapped := hunwrapped
    nonblank := hnonblank
    distinct := hdistinct
    values := hvalues
    normal := fun e he => hnormal e (Table.of_mem_ofEntries he) }

/-- The type of a control that is read is without the blanks and quotation marks around it. -/
theorem exists_unwrapped_of_read {name : Text} {tree : PlainValue} {c : Control}
    (h : Control.ofTree name tree = .ok c) : ∃ tag, c.typeTag = TypeToken.unwrapped tag := by
  obtain ⟨entries, -, h⟩ := exists_of_ofTree h
  obtain ⟨-, tag, -, -, -, -, -, rfl⟩ := parts_of_ofEntries h
  exact ⟨tag, rfl⟩

end Control

namespace Document

/-! ## Documents -/

theorem declarations_cons {item : PlainValue} {items : List PlainValue}
    {entries : List (PlainValue × PlainValue)} (h : declarations (item :: items) = .ok entries) :
    ∃ entry others, item = .map [entry] ∧ entries = entry :: others
      ∧ declarations items = .ok others := by
  rw [declarations.eq_def] at h
  split at h
  · next heq => cases heq
  · next entry rest heq =>
    obtain ⟨rfl, rfl⟩ := List.cons.inj heq
    obtain ⟨others, hothers, h⟩ := exists_of_bind h
    exact ⟨entry, others, rfl, (Except.ok.inj h).symm, hothers⟩
  · cases h

/-- The items of a list are maps with one declaration each. -/
theorem eq_of_declarations {items : List PlainValue} {entries : List (PlainValue × PlainValue)}
    (h : declarations items = .ok entries) : items = entries.map fun e => .map [e] := by
  induction items generalizing entries with
  | nil =>
    obtain rfl := Except.ok.inj h
    rfl
  | cons item rest ih =>
    obtain ⟨entry, others, rfl, rfl, hothers⟩ := declarations_cons h
    rw [List.map_cons, ← ih hothers]

/-- The declarations of a list are those of its items. -/
theorem genuine_declarations {items : List PlainValue} {entries : List (PlainValue × PlainValue)}
    (hr : Yaml.Tree.GenuineItems (fun _ => False) items) (h : declarations items = .ok entries) :
    Yaml.Tree.GenuineEntries (fun _ => False) entries := by
  obtain rfl := eq_of_declarations h
  refine Yaml.Tree.genuineEntries_iff.2 fun e he => ?_
  have hitem := Yaml.Tree.genuineItems_iff.1 hr _ (List.mem_map_of_mem he)
  exact ⟨hitem.1, hitem.2.1⟩

/-- Each declaration gives one control, under a name that is not known yet. -/
theorem controlsOf_spec {known controls : Table Control} {entries : List (PlainValue × PlainValue)}
    (hknown : known.keys.Nodup) (h : controlsOf known entries = .ok controls) :
    controls.keys.Nodup ∧ controls.length = known.length + entries.length
      ∧ ∀ e ∈ controls, e ∈ known ∨ ∃ d ∈ entries, Control.ofTree e.1 d.2 = .ok e.2 := by
  induction entries generalizing known with
  | nil =>
    obtain rfl := Except.ok.inj h
    exact ⟨hknown, rfl, fun e he => .inl he⟩
  | cons d rest ih =>
    obtain ⟨key, body⟩ := d
    obtain ⟨name, -, h⟩ := exists_of_bind h
    split at h
    · cases h
    · next hnew =>
      obtain ⟨c, hc, h⟩ := exists_of_bind h
      have hkeys : (known ++ [(name, c)]).keys.Nodup := by
        rw [Table.keys, List.map_append, List.nodup_append]
        refine ⟨hknown, by simp, fun a ha b hb he => hnew ?_⟩
        rw [Table.hasKey, Table.get?_isSome_iff]
        obtain rfl : b = name := by simpa using hb
        exact he ▸ ha
      obtain ⟨hnodup, hlen, hmem⟩ := ih hkeys h
      refine ⟨hnodup, by rw [hlen]; simp; omega, fun e he => ?_⟩
      rcases hmem e he with he | ⟨d, hd, hread⟩
      · rcases List.mem_append.1 he with he | he
        · exact .inl he
        · obtain rfl := List.mem_singleton.1 he
          exact .inr ⟨_, List.mem_cons_self, hc⟩
      · exact .inr ⟨d, List.mem_cons_of_mem _ hd, hread⟩

theorem ofDeclarations_spec {asSequence : Bool} {entries : List (PlainValue × PlainValue)}
    {d : Document} (h : ofDeclarations asSequence entries = .ok d) :
    d.controls ≠ [] ∧ d.controls.keys.Nodup
      ∧ ∀ e ∈ d.controls, ∃ d ∈ entries, Control.ofTree e.1 d.2 = .ok e.2 := by
  rw [ofDeclarations] at h
  split at h
  · cases h
  · next hne =>
    obtain ⟨controls, hcontrols, rfl⟩ := exists_of_map h
    have hnone : (Table.keys ([] : Table Control)).Nodup := List.nodup_nil
    obtain ⟨hnodup, hlen, hmem⟩ := controlsOf_spec hnone hcontrols
    refine ⟨fun he => hne ?_, hnodup, fun e he => (hmem e he).resolve_left List.not_mem_nil⟩
    have hcontrols : controls = [] := he
    have hzero : entries.length = 0 := by
      rw [hcontrols] at hlen
      simpa using hlen.symm
    rw [List.length_eq_zero_iff.1 hzero]
    rfl

theorem isRead_of_treeOf {t : Text} {tree : PlainValue} (h : treeOf t = .ok tree) : IsRead tree := by
  rw [treeOf] at h
  split at h
  · cases h
  · split at h
    · next htext =>
      obtain rfl := Except.ok.inj h
      exact Yaml.Tree.genuine_ofText htext
    · cases h
    · cases h

/-- The controls of a document are made from what stands under their names. -/
theorem controls_of_parse {t : Text} {d : Document} (h : parse t = .ok d) :
    d.controls ≠ [] ∧ d.controls.keys.Nodup
      ∧ ∀ e ∈ d.controls, ∃ body, IsRead body ∧ Control.ofTree e.1 body = .ok e.2 := by
  obtain ⟨tree, htree, h⟩ := exists_of_bind h
  have hread : IsRead tree := isRead_of_treeOf htree
  rw [Document.ofTree.eq_def] at h
  split at h
  · next items =>
    obtain ⟨entries, hentries, h⟩ := exists_of_bind h
    obtain ⟨hne, hnodup, hmem⟩ := ofDeclarations_spec h
    refine ⟨hne, hnodup, fun e he => ?_⟩
    obtain ⟨b, hb, hc⟩ := hmem e he
    exact ⟨b.2, (Yaml.Tree.genuineEntries_iff.1 (genuine_declarations hread hentries) b hb).2, hc⟩
  · next entries =>
    obtain ⟨hne, hnodup, hmem⟩ := ofDeclarations_spec h
    refine ⟨hne, hnodup, fun e he => ?_⟩
    obtain ⟨b, hb, hc⟩ := hmem e he
    exact ⟨b.2, (Yaml.Tree.genuineEntries_iff.1 hread b hb).2, hc⟩
  · cases h

/-- A document that is read is well-formed if its controls repeat no key and their types can stand
by themselves. -/
theorem wellFormed_of_parse {t : Text} {d : Document} (h : parse t = .ok d)
    (hkeys : ∀ e ∈ d.controls, e.2.keyOrder.Nodup)
    (hunwrapped : ∀ e ∈ d.controls, TypeToken.unwrapped e.2.typeTag = e.2.typeTag)
    (hnonblank : ∀ e ∈ d.controls, e.2.typeTag.isAllBlank = false) : d.WellFormed := by
  obtain ⟨hne, hnodup, hmem⟩ := controls_of_parse h
  refine ⟨hne, hnodup, fun e he => ?_⟩
  obtain ⟨body, hbody, hc⟩ := hmem e he
  exact Control.wellFormed_of_read hbody hc (hkeys e he) (hunwrapped e he) (hnonblank e he)

end Document

end ModernControls
