import ModernControls.Proofs.Control.Lasting
import ModernControls.Proofs.Control.Names
import ModernControls.Proofs.Control.ShortIntegers
import ModernControls.Proofs.Yaml.Short

/-!
# Ordinary documents

Documents as programs make them: names and keys are words, types are words with a version or
without, values are nothing, truth values, integers, objects, and formulas and texts of printable
ASCII characters, tabs and line feeds. Such a document is read back as it was written, whatever its
texts look like: formulas, numbers, comments, the headers of blocks.

There is one condition, and it cannot be done without: an integer must not be longer than integers
may be written.

Results:
- `lastsText_of_typed`: a text of such characters is read back under every key but that of types;
- `isLasting_of_ordinary`: so is an ordinary document;
- `Property.isShort_toTree`: the integers of a value are those of its tree;
- `parse_render_iff_of_ordinary`: an ordinary document is read back just if its integers may be
  written.
-/
namespace ModernControls

open Yaml Layout Formula

/-! ## Characters -/

/-- Whether a character is printable ASCII, a tab or a line feed. -/
def isTyped (c : Char) : Bool := (0x20 ≤ c.toNat && c.toNat ≤ 0x7E) || c = '\t' || c = '\n'

theorem isTyped_lt {c : Char} (h : isTyped c = true) : c.toNat < 128 := by
  simp only [isTyped, Bool.or_eq_true, Bool.and_eq_true, decide_eq_true_eq] at h
  rcases h with (⟨-, h⟩ | rfl) | rfl
  · omega
  · decide
  · decide

theorem forall_typed {P : Char → Bool}
    (h : ∀ n < 128, isTyped (Char.ofNat n) = true → P (Char.ofNat n) = true) {c : Char}
    (hc : isTyped c = true) : P c = true :=
  forall_ascii (P := fun c => isTyped c = true → P c = true) h (isTyped_lt hc) hc

/-- A typed character can be quoted, and it can stand in a block unless it ends a line. -/
theorem of_isTyped {c : Char} (h : isTyped c = true) :
    isSafe c = true ∧ c ≠ '\r' ∧ c ≠ formulaMark
      ∧ (c = '\n' ∨ isReadable c = true ∧ isBreakOrEnd c = false) := by
  have hall := forall_typed (P := fun c => isSafe c && c ≠ '\r' && c ≠ formulaMark
    && (c = '\n' || isReadable c && !isBreakOrEnd c)) (by decide +kernel) h
  simpa [and_assoc] using hall

/-- A typed character breaks lines only if it is a line feed, and if it is a blank that may stand in
plain text, it is a space. -/
theorem edge_of_isTyped {c : Char} (h : isTyped c = true) :
    (isFold c = true → c = '\n')
      ∧ (isOrdinary c = true → (isSpace c || isFold c) = false → isBlank c = false) := by
  have hall := forall_typed (P := fun c => (!isFold c || c = '\n')
    && (!isOrdinary c || (isSpace c || isFold c) || !isBlank c)) (by decide +kernel) h
  simp only [Bool.and_eq_true, Bool.or_eq_true, Bool.not_eq_true', decide_eq_true_eq] at hall
  refine ⟨fun hf => ?_, fun ho hs => ?_⟩
  · rcases hall.1 with hn | hn
    · rw [hf] at hn; cases hn
    · exact hn
  · rcases hall.2 with (hn | hn) | hn
    · rw [ho] at hn; cases hn
    · rw [Bool.or_eq_false_iff] at hs
      rcases hn with hn | hn
      · rw [hs.1] at hn; cases hn
      · rw [hs.2] at hn; cases hn
    · exact hn

/-! ## Texts and formulas -/

/-- Whether a text can be typed. -/
def IsTypedText (t : Text) : Prop := ∀ c ∈ t, isTyped c = true

instance : DecidablePred IsTypedText := fun t =>
  inferInstanceAs (Decidable (∀ c ∈ t, isTyped c = true))

variable {t : Text}

theorem not_mark_of_typed (h : IsTypedText t) : t.head? ≠ some formulaMark := fun hm =>
  (of_isTyped (h _ (List.mem_of_mem_head? hm))).2.2.1 rfl

/-- What may be written plain does not end with a blank. -/
theorem trimEnd_of_isPlainText (h : IsTypedText t) (hp : isPlainText t = true) : t.trimEnd = t := by
  simp only [isPlainText, keepsSpaces, hasGapAtEdge, Bool.and_eq_true, Bool.not_eq_true',
    Bool.or_eq_false_iff, List.all_eq_true] at hp
  obtain ⟨⟨⟨⟨⟨-, hordinary, -⟩, -, hlast⟩, -⟩, -⟩, -⟩ := hp
  refine Text.trimEnd_eq fun c hc => ?_
  have hmem := List.mem_of_getLast? hc
  have hgap : (isSpace c || isFold c) = false := by
    rw [Option.any_eq_false] at hlast
    simpa using hlast c hc
  exact (edge_of_isTyped (h c hmem)).2 (hordinary c hmem) hgap

/-- A text that can be typed is read back under every key but that of types. -/
theorem lastsText_of_typed (h : IsTypedText t) {key : Option Text} (hk : key ≠ some typeKey) :
    LastsText key t where
  unbroken _ hm := by
    rw [isMultiline, List.any_eq_true] at hm
    obtain ⟨c, hc, hf⟩ := hm
    exact (edge_of_isTyped (h c hc)).1 hf ▸ hc
  edge hp _ _ _ := trimEnd_of_isPlainText h hp
  marked x hx := absurd (hx ▸ rfl) (not_mark_of_typed h)
  version he := absurd he hk

/-- A formula that can be typed is read back. -/
theorem keeps_of_typed (h : IsTypedText t) : Keeps t where
  mark := not_mark_of_typed h
  line _ c hc := ⟨(of_isTyped (h c hc)).1, (of_isTyped (h c hc)).2.1⟩
  block _ c hc := (of_isTyped (h c hc)).2.2.2

/-! ## Types -/

theorem isWordChar_of_isAsciiDigit {c : Char} (h : isAsciiDigit c = true) : isWordChar c = true := by
  have hdigit : c.isDigit = true := by
    simpa [isAsciiDigit, Char.isDigit, Char.le_def, UInt32.le_iff_toNat_le] using h
  simp [isWordChar, Char.isAlphanum, hdigit]

/-- The characters of a type. -/
theorem chars_of_isType {tag : Text} (h : IsType tag) :
    ∀ c ∈ tag, isWordChar c = true ∨ c = '@' ∨ c = '.' := by
  obtain ⟨name, hname, -, rfl | ⟨version, -, hversion, rfl⟩⟩ := h
  · exact fun c hc => .inl (hname.chars c hc)
  · intro c hc
    rcases List.mem_append.1 hc with hc | hc
    · exact .inl (hname.chars c hc)
    · rcases List.mem_cons.1 hc with rfl | hc
      · exact .inr (.inl rfl)
      · rcases hversion c hc with hc | hc
        · exact .inl (isWordChar_of_isAsciiDigit hc)
        · exact .inr (.inr hc)

theorem forall_typeChar {P : Char → Bool}
    (h : ∀ n < 128, isWordChar (Char.ofNat n) = true → P (Char.ofNat n) = true) (hat : P '@' = true)
    (hpoint : P '.' = true) {tag : Text} (ht : IsType tag) : ∀ c ∈ tag, P c = true := by
  intro c hc
  rcases chars_of_isType ht c hc with hc | rfl | rfl
  · exact forall_wordChar h hc
  · exact hat
  · exact hpoint

theorem head_of_isType {tag : Text} (h : IsType tag) : ∃ c r, tag = c :: r ∧ c.isAlpha = true := by
  obtain ⟨name, hname, -, htag⟩ := h
  obtain ⟨c, r, rfl, hc⟩ := hname.letter
  rcases htag with rfl | ⟨version, -, -, rfl⟩
  · exact ⟨c, r, rfl, hc⟩
  · exact ⟨c, r ++ '@' :: version, rfl, hc⟩

/-- A type in plain words can stand by itself. -/
theorem unwrapped_of_isType {tag : Text} (h : IsType tag) : TypeToken.unwrapped tag = tag :=
  TypeToken.unwrapped_eq fun c hc => by
    have hall := forall_typeChar (P := fun c => !isBlank c && c ≠ '"' && c ≠ '\'')
      (by decide +kernel) (by decide) (by decide) h c hc
    simpa [and_assoc] using hall

theorem nonblank_of_isType {tag : Text} (h : IsType tag) : tag.isAllBlank = false := by
  obtain ⟨c, r, rfl, hc⟩ := head_of_isType h
  have hblank := (not_isBlank_of_isWordChar (of_isAlpha hc).1).1
  simp [Text.isAllBlank, hblank]

/-- A type in plain words is read back. -/
theorem lastsType_of_isType {tag : Text} (h : IsType tag) : LastsType tag := by
  have hall : ∀ c ∈ tag, isSafe c = true ∧ isFold c = false := fun c hc => by
    simpa using forall_typeChar (P := fun c => isSafe c && !isFold c) (by decide +kernel)
      (by decide) (by decide) h c hc
  have hhead : ∀ d, d.isAlpha = false → tag.head? ≠ some d := by
    intro d hd hm
    obtain ⟨c, r, rfl, hc⟩ := head_of_isType h
    obtain rfl : c = d := Option.some.inj hm
    rw [hd] at hc
    cases hc
  refine ⟨fun _ _ => ?_, fun _ _ => hhead _ (by decide), fun _ =>
    ⟨fun c hc => (hall c hc).1, hhead _ (by decide), hhead _ (by decide)⟩⟩
  rw [isMultiline, List.any_eq_false]
  exact fun c hc => by simp [(hall c hc).2]

/-! ## Documents -/

namespace Property

mutual

/-- Whether a value is nothing, a truth value, an integer, a formula or text that can be typed, or
an object of such values. -/
def Ordinary : Property → Prop
  | .empty => True
  | .bool _ => True
  | .int _ => True
  | .float _ => False
  | .formula e => IsTypedText e
  | .string t form => form = .plain ∧ IsTypedText t
  | .object entries => (entries.map (·.1)).Nodup ∧ OrdinaryEntries entries

/-- Whether all keys are names, none of them that of types, and all values are ordinary. -/
def OrdinaryEntries : List (Text × Property) → Prop
  | [] => True
  | (key, value) :: rest =>
    (IsName key ∧ key ≠ typeKey) ∧ Ordinary value ∧ OrdinaryEntries rest

end

mutual

theorem wellFormed_of_ordinary : ∀ p : Property, p.Ordinary → p.WellFormed
  | .empty, _ => trivial
  | .bool _, _ => trivial
  | .int _, _ => trivial
  | .float _, h => h.elim
  | .formula _, _ => trivial
  | .string .., h => h.1
  | .object entries, h => ⟨h.1, wellFormed_of_ordinaryEntries entries h.2⟩

theorem wellFormed_of_ordinaryEntries : ∀ entries : List (Text × Property),
    OrdinaryEntries entries → WellFormedEntries entries
  | [], _ => trivial
  | (_, value) :: rest, h =>
    ⟨wellFormed_of_ordinary value h.2.1, wellFormed_of_ordinaryEntries rest h.2.2⟩

end

mutual

theorem lasts_of_ordinary : ∀ (p : Property) {key : Option Text}, key ≠ some typeKey →
    p.Ordinary → p.HasShortIntegers → p.Lasts key
  | .empty, _, _, _, _ => trivial
  | .bool _, _, _, _, _ => trivial
  | .int _, _, _, _, hs => hs
  | .float _, _, _, h, _ => h.elim
  | .formula _, _, _, h, _ => keeps_of_typed h
  | .string .., _, hk, h, _ => lastsText_of_typed h.2 hk
  | .object entries, _, _, h, hs => lasts_of_ordinaryEntries entries h.2 hs

theorem lasts_of_ordinaryEntries : ∀ entries : List (Text × Property), OrdinaryEntries entries →
    HasShortIntegersEntries entries → LastsEntries entries
  | [], _, _ => trivial
  | (_, value) :: rest, h, hs =>
    ⟨keepsKey_of_isName h.1.1,
      lasts_of_ordinary value (fun he => h.1.2 (Option.some.inj he)) h.2.1 hs.1,
      lasts_of_ordinaryEntries rest h.2.2 hs.2⟩

end

end Property

/-- Whether a control has a type in plain words, ordinary properties, none of them twice, and
nothing else. -/
structure Control.Ordinary (c : Control) : Prop where
  type : IsType c.typeTag
  extras : c.extras = []
  keyOrder : c.keyOrder = [typeKey, propertiesKey]
  distinct : (c.properties.map (·.1)).Nodup
  properties : Property.OrdinaryEntries c.properties

/-- Whether a document holds ordinary controls, at least one, under names of their own. -/
structure Document.Ordinary (d : Document) : Prop where
  nonempty : d.controls ≠ []
  distinct : d.controls.keys.Nodup
  names : ∀ e ∈ d.controls, IsName e.1
  controls : ∀ e ∈ d.controls, e.2.Ordinary

/-- Whether all integers in a document may be written. -/
def Document.HasShortIntegers (d : Document) : Prop :=
  ∀ e ∈ d.controls, Property.HasShortIntegersEntries e.2.properties

/-- The keys of types and of properties are names. -/
theorem keepsKey_own {k : Text} (h : k ∈ [typeKey, propertiesKey]) : KeepsKey k := by
  rcases List.mem_cons.1 h with rfl | h
  · exact ⟨typeKey, by decide +kernel, by decide +kernel⟩
  · obtain rfl := List.mem_singleton.1 h
    exact ⟨propertiesKey, by decide +kernel, by decide +kernel⟩

namespace Control

variable {c : Control}

theorem wellFormed_of_ordinary (h : c.Ordinary) : c.WellFormed :=
  wellFormed_of_keys h.keyOrder h.extras (unwrapped_of_isType h.type) (nonblank_of_isType h.type)
    h.distinct (Property.wellFormed_of_ordinaryEntries _ h.properties)

theorem isLasting_of_ordinary (h : c.Ordinary)
    (hs : Property.HasShortIntegersEntries c.properties) : c.IsLasting where
  keys := by rw [h.keyOrder]; decide +kernel
  fits k hk := keepsKey_own (h.keyOrder ▸ hk)
  unwrapped := unwrapped_of_isType h.type
  nonblank := nonblank_of_isType h.type
  type := lastsType_of_isType h.type
  properties := Property.lasts_of_ordinaryEntries _ h.properties hs
  extras e he := by
    rw [h.extras] at he
    cases he

end Control

namespace Document

variable {d : Document}

theorem wellFormed_of_ordinary (h : d.Ordinary) : d.WellFormed :=
  ⟨h.nonempty, h.distinct, fun e he => Control.wellFormed_of_ordinary (h.controls e he)⟩

theorem isLasting_of_ordinary (h : d.Ordinary) (hs : d.HasShortIntegers) : d.IsLasting where
  names e he := keepsKey_of_isName (h.names e he)
  controls e he := Control.isLasting_of_ordinary (h.controls e he) (hs e he)

end Document

/-! ## Long integers -/

namespace Property

theorem isShort_treeOfText (t : Text) (form : TextForm) : (treeOfText t form).isShort = true := by
  rw [treeOfText]
  split
  · rfl
  · split
    · rfl
    · split <;> rfl

mutual

theorem isShort_toTree : ∀ p : Property, p.toTree.isShort = true ↔ p.HasShortIntegers
  | .empty => ⟨fun _ => trivial, fun _ => rfl⟩
  | .bool _ => ⟨fun _ => trivial, fun _ => rfl⟩
  | .int n => by
    show (!isLongInteger n) = true ↔ isLongInteger n = false
    rw [Bool.not_eq_true']
  | .float _ => ⟨fun _ => trivial, fun _ => rfl⟩
  | .formula _ => ⟨fun _ => trivial, fun _ => rfl⟩
  | .string t form => ⟨fun _ => trivial, fun _ => isShort_treeOfText t form⟩
  | .object entries => areShort_toTreeEntries entries

theorem areShort_toTreeEntries : ∀ entries : List (Text × Property),
    Yaml.Tree.areShortEntries (toTreeEntries entries) = true ↔ HasShortIntegersEntries entries
  | [] => by simp [toTreeEntries, Yaml.Tree.areShortEntries, HasShortIntegersEntries]
  | (key, value) :: rest => by
    simp only [toTreeEntries, PropertyKey.plain_text, Yaml.Tree.areShortEntries,
      Yaml.Tree.isShort, Bool.true_and, Bool.and_eq_true, HasShortIntegersEntries,
      isShort_toTree value, areShort_toTreeEntries rest]

end

end Property

namespace Document

variable {d : Document}

/-- A document that is written holds no integer that is too long. -/
theorem hasShortIntegers_of_render (hw : d.WellFormed) {u : Text} (h : render d = .ok u)
    (hp : ∀ e ∈ d.controls, propertiesKey ∈ e.2.keyOrder) : d.HasShortIntegers := by
  have hshort : d.toTree.isShort = true := by
    rw [render, textOf] at h
    split at h
    · cases h
    · cases h
    · next ht =>
      obtain ⟨T, hT, -⟩ := exists_of_map ht
      exact Yaml.Tree.isShort_of_proper _ hT
  intro e he
  have hcontrol : e.2.toTree.isShort = true := by
    obtain ⟨controls, asSequence⟩ := d
    cases asSequence with
    | true =>
      have hitem := Yaml.Tree.areShort_iff.1 hshort (.map [declaration e])
        (List.mem_map_of_mem (List.mem_map_of_mem he))
      exact (Yaml.Tree.areShortEntries_iff.1 hitem _ List.mem_cons_self).2
    | false =>
      exact (Yaml.Tree.areShortEntries_iff.1 hshort (declaration e) (List.mem_map_of_mem he)).2
  rw [Control.toTree_eq (hw.controls e he)] at hcontrol
  have hpart := (Yaml.Tree.areShortEntries_iff.1 hcontrol _ (List.mem_map_of_mem (hp e he))).2
  have hne : propertiesKey ≠ typeKey := by decide +kernel
  rw [Control.part, if_neg hne, if_pos rfl] at hpart
  exact (Property.areShort_toTreeEntries _).1 hpart

/-- An ordinary document is written, and what is written is read as the document again, just if its
integers are not too long to be written. -/
theorem parse_render_iff_of_ordinary (h : d.Ordinary) :
    (∃ u, render d = .ok u ∧ parse u = .ok d) ↔ d.HasShortIntegers := by
  constructor
  · rintro ⟨u, hu, -⟩
    refine hasShortIntegers_of_render (wellFormed_of_ordinary h) hu fun e he => ?_
    rw [(h.controls e he).keyOrder]
    exact List.mem_cons_of_mem _ List.mem_cons_self
  · intro hs
    have hl := isLasting_of_ordinary h hs
    exact parse_render_of_keeps (wellFormed_of_ordinary h) hl.freeOfMarks
      (keepsTree_toTree (wellFormed_of_ordinary h) hl)

/-- A control in a map, with texts that look like something else, a formula in several lines and an
object in an object. -/
def label : Document :=
  .single "Label_1".toList
    ⟨"Classic/Label@2.5.1".toList,
      [("Text".toList, .string "=  - a: 'b' # c".toList .plain),
        ("OnSelect".toList, .formula "If(\n\tx,\n  \n".toList),
        ("Size".toList, .object [("Width".toList, .int (-12)), ("On_1".toList, .object []),
          ("Note".toList, .string "|-\n yes\n\n".toList .plain)]),
        ("Visible".toList, .bool true), ("Tooltip".toList, .empty)],
      [], [typeKey, propertiesKey]⟩ false

theorem label_ordinary : label.Ordinary where
  nonempty := List.cons_ne_nil _ _
  distinct := by decide +kernel
  names := by decide +kernel
  controls := by
    intro e he
    obtain rfl := List.mem_singleton.1 he
    refine ⟨⟨"Classic/Label".toList, by decide +kernel, by decide +kernel,
      .inr ⟨"2.5.1".toList, by decide +kernel, by decide +kernel, by decide +kernel⟩⟩, rfl, rfl,
      by decide +kernel, ⟨by decide +kernel, by decide +kernel⟩, ⟨rfl, by decide +kernel⟩,
      ⟨by decide +kernel, by decide +kernel⟩, ?_, ⟨by decide +kernel, by decide +kernel⟩, ?_,
      ⟨by decide +kernel, by decide +kernel⟩, trivial, ⟨by decide +kernel, by decide +kernel⟩,
      trivial, trivial⟩
    · show IsTypedText _
      decide +kernel
    · exact ⟨by decide +kernel, ⟨by decide +kernel, by decide +kernel⟩, trivial,
        ⟨by decide +kernel, by decide +kernel⟩, ⟨List.nodup_nil, trivial⟩,
        ⟨by decide +kernel, by decide +kernel⟩, ⟨rfl, by decide +kernel⟩, trivial⟩

theorem parse_render_label : label.Ordinary ∧ ∃ u, render label = .ok u ∧ parse u = .ok label := by
  refine ⟨label_ordinary, (parse_render_iff_of_ordinary label_ordinary).2 ?_⟩
  intro e he
  obtain rfl := List.mem_singleton.1 he
  have hshort : isLongInteger (-12) = false := by decide +kernel
  exact ⟨trivial, trivial, ⟨hshort, trivial, trivial, trivial⟩, trivial, trivial, trivial⟩

/-- A control with an integer as its only property. -/
def numbered (n : Int) : Document :=
  .single "B".toList ⟨"X".toList, [("T".toList, .int n)], [], [typeKey, propertiesKey]⟩ true

theorem numbered_ordinary (n : Int) : (numbered n).Ordinary where
  nonempty := List.cons_ne_nil _ _
  distinct := by simp [numbered, single, Table.keys]
  names := by
    intro e he
    obtain rfl := List.mem_singleton.1 he
    exact (by decide +kernel : IsName "B".toList)
  controls := by
    intro e he
    obtain rfl := List.mem_singleton.1 he
    refine ⟨⟨"X".toList, by decide +kernel, by decide +kernel, .inl rfl⟩, rfl, rfl, ?_, ?_⟩
    · exact List.nodup_singleton _
    · exact ⟨⟨(by decide +kernel : IsName "T".toList), (by decide +kernel : "T".toList ≠ typeKey)⟩,
        trivial, trivial⟩

/-- An integer with one digit more than may be written: its document is ordinary, and has no
text. -/
theorem not_parse_render_numbered : (numbered (Nat.pow 10 mostDigits)).Ordinary
    ∧ ¬ ∃ u, render (numbered (Nat.pow 10 mostDigits)) = .ok u
      ∧ parse u = .ok (numbered (Nat.pow 10 mostDigits)) := by
  refine ⟨numbered_ordinary _, fun ⟨u, hu, _⟩ => ?_⟩
  have hkey : ∀ e ∈ (numbered (Nat.pow 10 mostDigits)).controls, propertiesKey ∈ e.2.keyOrder := by
    intro e he
    obtain rfl := List.mem_singleton.1 he
    exact List.mem_cons_of_mem _ List.mem_cons_self
  have hshort := hasShortIntegers_of_render (wellFormed_of_ordinary (numbered_ordinary _)) hu hkey _
    List.mem_cons_self
  have hlong : isLongInteger (Nat.pow 10 mostDigits : Nat) = true :=
    isLongInteger_of_le (Nat.le_refl _)
  rw [show isLongInteger _ = false from hshort.1] at hlong
  cases hlong

end Document

end ModernControls
