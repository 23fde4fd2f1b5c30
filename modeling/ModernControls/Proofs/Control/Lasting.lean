import ModernControls.Proofs.Control.Reading
import ModernControls.Proofs.Control.RoundTrip

/-!
# Documents that last

Which documents are read back: a condition on the texts, keys and numbers in a document, not on the
tree it is written as.

**Texts (`Formula.LastsText`).** A text with line breaks has a line feed among them, or it cannot be
written between single quotation marks, where a reader joins lines. A plain text that the escaper
puts between quotation marks behind its key does not end with a blank, which the escaper takes away.
What follows the formula mark at the start of a text can be quoted as it stands. A text under the key
of types that looks like a type with a version has no line feed, and if it takes double quotation
marks it can be quoted as it stands and begins no comment.

**Types (`Formula.LastsType`).** A type that is written without quotation marks is one line and no
formula; a type with a version can be quoted as it stands, is no formula and begins no comment.

**Keys (`Formula.KeepsKey`).** A key fits on its line.

**Values.** Integers have at most so many digits as may be written, formulas are ones that are read
back (`Formula.Keeps`), and there are no bytes, moments, sets and tuples.

Results:
- `keepsTree_text`, `keepsTree_type`: such a text stays, however it is written;
- `keepsTree_of_lasts`: so does the tree of a document that lasts;
- `parse_render_of_lasts`: a well-formed document that lasts is read back.
-/
namespace ModernControls

open Yaml Layout Formula

namespace Formula

/-- Whether a text is read back, behind a key if there is one. -/
structure LastsText (key : Option Text) (t : Text) : Prop where
  unbroken : isSingleText t = true → isMultiline t = true → '\n' ∈ t
  edge : isPlainText t = true → ∀ k, key = some k → needsQuotes (Text.trim k) t.trimEnd = true →
    t.trimEnd = t
  marked : ∀ x, t = formulaMark :: x → ∀ c ∈ x, isSafe c = true
  version : key = some typeKey → isVersionedType (withoutFeed t) = true →
    '\n' ∉ t ∧ (isSingleText t = false →
      (∀ c ∈ t, isSafe c = true) ∧ t.head? ≠ some formulaSign ∧ t.head? ≠ some '#')

/-- Whether a type is read back. -/
structure LastsType (tag : Text) : Prop where
  unbroken : TypeToken.versionSign ∉ tag → isSingleText tag = true → isMultiline tag = false
  sign : TypeToken.versionSign ∉ tag → isPlainText tag = true → tag.head? ≠ some formulaSign
  version : isVersionedType tag = true →
    (∀ c ∈ tag, isSafe c = true) ∧ tag.head? ≠ some formulaSign ∧ tag.head? ≠ some '#'

end Formula

namespace Property

mutual

/-- Whether a value is read back, behind a key if there is one. -/
def Lasts (key : Option Text) : Property → Prop
  | .formula e => Formula.Keeps e
  | .int n => isLongInteger n = false
  | .string t _ => LastsText key t
  | .object entries => LastsEntries entries
  | _ => True

/-- Whether all entries are read back. -/
def LastsEntries : List (Text × Property) → Prop
  | [] => True
  | (key, value) :: rest => KeepsKey key ∧ Lasts (some key) value ∧ LastsEntries rest

end

end Property

namespace Control

mutual

/-- Whether a further part is read back, behind a key if there is one. -/
def Lasts (key : Option Text) : PlainValue → Prop
  | .int n => isLongInteger n = false
  | .text t _ => LastsText key t
  | .list items => LastsItems items
  | .map entries => LastsEntries entries
  | .foreign (.property value) => value.Lasts key
  | .null => True
  | .bool _ => True
  | .float _ => True
  | _ => False

/-- Whether all items are read back. -/
def LastsItems : List PlainValue → Prop
  | [] => True
  | item :: rest => Lasts none item ∧ LastsItems rest

/-- Whether all entries are read back. -/
def LastsEntries : List (PlainValue × PlainValue) → Prop
  | [] => True
  | (key, value) :: rest =>
    KeepsKey key.keyText ∧ Lasts (some key.keyText) value ∧ LastsEntries rest

end

/-- Whether a control is read back. It repeats no key, its keys fit on their lines, and its type can
stand by itself, without quotation marks or blanks around it. -/
structure IsLasting (c : Control) : Prop where
  keys : c.keyOrder.Nodup
  fits : ∀ k ∈ c.keyOrder, KeepsKey k
  unwrapped : TypeToken.unwrapped c.typeTag = c.typeTag
  nonblank : c.typeTag.isAllBlank = false
  type : LastsType c.typeTag
  properties : Property.LastsEntries c.properties
  extras : ∀ e ∈ c.extras, Lasts (some e.1) e.2

end Control

/-- Whether a document is read back. -/
structure Document.IsLasting (d : Document) : Prop where
  names : ∀ e ∈ d.controls, KeepsKey e.1
  controls : ∀ e ∈ d.controls, e.2.IsLasting

namespace Formula

/-! ## Texts -/

theorem style_of_forced {style : ScalarStyle} {t : Text} (h : style = .single ∨ style = .double) :
    Leaf.style false ⟨.str, t, some style⟩
      = if style = .single ∧ isSingleText t = true then .single else .double := by
  rcases h with rfl | rfl
  · simp [Leaf.style]
  · simp [Leaf.style]

/-- The style of a text that asks for none. -/
theorem style_free (t : Text) : Leaf.style false ⟨.str, t, none⟩ = .plain
    ∨ Leaf.style false ⟨.str, t, none⟩ = .single ∧ isSingleText t = true
    ∨ Leaf.style false ⟨.str, t, none⟩ = .double ∧ isSingleText t = false := by
  rw [Leaf.style]
  by_cases hp : Leaf.mayBePlain false ⟨.str, t, none⟩ = true
  · simp [hp]
  · by_cases hs : isSingleText t = true
    · simp [hp, hs]
    · simp [hp, hs]

variable {key : Option Text} {t : Text}

/-- A type with a version does not begin with the mark, which is a blank. -/
theorem head_ne_mark_of_isVersionedType (h : isVersionedType t = true) :
    t.head? ≠ some formulaMark := by
  obtain ⟨name, version, rfl, hne, hname, -⟩ := of_isVersionedType h
  obtain ⟨c, name, rfl⟩ := List.exists_cons_of_ne_nil hne
  intro hc
  obtain rfl : c = formulaMark := by simpa using hc
  exact absurd (hname _ List.mem_cons_self).1 (by decide)

theorem head_withoutFeed {c : Char} (hc : c ≠ '\n') (t : Text) :
    (withoutFeed (c :: t)).head? = some c := by
  rw [withoutFeed]
  split
  · next h =>
    cases t with
    | nil => exact absurd (Option.some.inj h) hc
    | cons d t => rfl
  · rfl

/-- A text that begins with the mark gets another one before it. -/
theorem keepsLeaf_marked {t : Text} (h : LastsText key (formulaMark :: t)) :
    KeepsLeaf key ⟨.str, formulaMark :: formulaMark :: t, some .double⟩ := by
  have hs := style_of_forced_double false .str (formulaMark :: formulaMark :: t)
  refine ⟨rfl, by simp [hs], by simp [hs], by simp [hs], by simp [hs], by simp [hs], ?_, ?_, ?_⟩
  · intro x hx
    obtain rfl : t = x := by simpa using hx
    exact h.marked t rfl
  · intro x hx hhead
    obtain rfl : formulaMark :: t = x := by simpa using hx
    exact absurd rfl hhead
  · intro _ _ hv
    exact absurd (head_withoutFeed (by decide) _) (head_ne_mark_of_isVersionedType hv)

/-- A text with a line feed is written between double quotation marks. -/
theorem keepsLeaf_feed (h : LastsText key t) (hm : t.head? ≠ some formulaMark) (hf : '\n' ∈ t) :
    KeepsLeaf key ⟨.str, t, some .double⟩ := by
  have hs := style_of_forced_double false .str t
  have hne : ∀ x, t ≠ formulaMark :: x := fun x hx => hm (hx ▸ rfl)
  refine ⟨rfl, by simp [hs], by simp [hs], by simp [hs], by simp [hs], by simp [hs],
    fun x hx => absurd hx (hne _), fun x hx => absurd hx (hne _), fun _ hk hv => ?_⟩
  exact absurd hf (h.version hk hv).1

theorem not_isMultiline_of_lasts (h : LastsText key t) (hf : '\n' ∉ t)
    (hs : isSingleText t = true) : isMultiline t = false :=
  Bool.eq_false_iff.2 fun hm => hf (h.unbroken hs hm)

/-- What is written between double quotation marks keeps its place, if it can be quoted. -/
theorem keepsLeaf_double {style : Option ScalarStyle} (h : LastsText key t)
    (hm : t.head? ≠ some formulaMark) (hf : '\n' ∉ t) (hs : isSingleText t = false)
    (hstyle : Leaf.style false ⟨.str, t, style⟩ = .double) : KeepsLeaf key ⟨.str, t, style⟩ := by
  have hne : ∀ x, t ≠ formulaMark :: x := fun x hx => hm (hx ▸ rfl)
  refine ⟨rfl, by simp [hstyle], by simp [hstyle], by simp [hstyle], by simp [hstyle],
    by simp [hstyle], fun x hx => absurd hx (hne _), fun x hx => absurd hx (hne _), fun _ hk hv => ?_⟩
  obtain ⟨hsafe, hsign, hhash⟩ := (h.version hk hv).2 hs
  exact ⟨fun c hc => ⟨hsafe c hc, fun hn => hf (hn ▸ hc)⟩, hsign, hhash⟩

/-- What is written between single quotation marks keeps its place, if it has no line breaks. -/
theorem keepsLeaf_single {style : Option ScalarStyle} (h : LastsText key t)
    (hm : t.head? ≠ some formulaMark) (hf : '\n' ∉ t) (hs : isSingleText t = true)
    (hstyle : Leaf.style false ⟨.str, t, style⟩ = .single) : KeepsLeaf key ⟨.str, t, style⟩ := by
  have hne : ∀ x, t ≠ formulaMark :: x := fun x hx => hm (hx ▸ rfl)
  exact ⟨rfl, by simp [hstyle], by simp [hstyle], fun _ => not_isMultiline_of_lasts h hf hs,
    by simp [hstyle], by simp [hstyle], fun x hx => absurd hx (hne _), fun x hx => absurd hx (hne _),
    by simp [hstyle]⟩

/-- A text that looks like a formula is written between single quotation marks, if it can be. -/
theorem keepsLeaf_sign (h : LastsText key t) (hm : t.head? ≠ some formulaMark) (hf : '\n' ∉ t) :
    KeepsLeaf key ⟨.str, t, some .single⟩ := by
  have hstyle := style_of_forced (t := t) (.inl rfl : ScalarStyle.single = .single ∨ _)
  cases hs : isSingleText t with
  | true =>
    rw [if_pos ⟨rfl, hs⟩] at hstyle
    exact keepsLeaf_single h hm hf hs hstyle
  | false =>
    rw [if_neg (by simp [hs])] at hstyle
    exact keepsLeaf_double h hm hf hs hstyle

/-- Any other text is written in the style that it can be written in. -/
theorem keepsLeaf_free (h : LastsText key t) (hm : t.head? ≠ some formulaMark) (hf : '\n' ∉ t)
    (he : t.trimStart.head? ≠ some formulaSign) : KeepsLeaf key ⟨.str, t, none⟩ := by
  have hne : ∀ x, t ≠ formulaMark :: x := fun x hx => hm (hx ▸ rfl)
  rcases style_free t with hstyle | ⟨hstyle, hs⟩ | ⟨hstyle, hs⟩
  · have hp := Word.isPlainText_of_style hstyle (ne_nil_of_plain rfl hstyle)
    exact ⟨rfl, by simp [hstyle], by simp [hstyle], by simp [hstyle], fun _ => h.edge hp,
      fun _ => he, fun x hx => absurd hx (hne _), fun x hx => absurd hx (hne _), by simp [hstyle]⟩
  · exact keepsLeaf_single h hm hf hs hstyle
  · exact keepsLeaf_double h hm hf hs hstyle

variable {α : Type}

/-- A text that lasts stays, in the form in which it is written. -/
theorem keepsTree_text (h : LastsText key t) :
    KeepsTree key (Property.treeOfText t .plain) := by
  unfold Property.treeOfText
  split
  · next hm =>
    cases t with
    | nil => cases hm
    | cons c r =>
      obtain rfl : c = formulaMark := by simpa using hm
      exact keepsLeaf_marked h
  · next hm =>
    split
    · next hf => exact keepsLeaf_feed h hm (List.contains_iff_mem.1 hf)
    · next hf =>
      have hf : '\n' ∉ t := fun hn => hf (List.contains_iff_mem.2 hn)
      split
      · exact keepsLeaf_sign h hm hf
      · next he => exact keepsLeaf_free h hm hf he

/-- A formula that is read back stays behind its mark. -/
theorem keepsTree_formula {e : Text} (h : Keeps e) :
    KeepsTree key (.text (formulaMark :: e) (.forced .double) : Yaml.Tree α) := by
  have hs := style_of_forced_double false .str (formulaMark :: e)
  show KeepsLeaf key ⟨.str, formulaMark :: e, some .double⟩
  refine ⟨rfl, by simp [hs], by simp [hs], by simp [hs], by simp [hs], by simp [hs], ?_, ?_, ?_⟩
  · intro x hx
    obtain rfl : e = formulaMark :: x := by simpa using hx
    exact absurd rfl h.mark
  · intro x hx _
    obtain rfl : e = x := by simpa using hx
    exact h
  · intro _ _ hv
    exact absurd (head_withoutFeed (by decide) _) (head_ne_mark_of_isVersionedType hv)

/-! ## Types -/

/-- A type that can stand by itself neither begins nor ends with a blank. -/
theorem edges_of_unwrapped {tag : Text} (h : TypeToken.unwrapped tag = tag) :
    (∀ c ∈ tag.head?, isBlank c = false) ∧ tag.trimEnd = tag := by
  obtain ⟨x, hx⟩ : ∃ x : Text, tag = x.trim := ⟨tag.trim.unquote, h.symm⟩
  subst hx
  exact ⟨fun c hc => Text.head_trim hc, Text.trimEnd_trim x⟩

theorem withoutFeed_of_trimEnd {t : Text} (h : t.trimEnd = t) : withoutFeed t = t := by
  refine if_neg fun hlast => ?_
  have hblank : isBlank '\n' = false := Text.getLast_trimEnd (t := t) (h.symm ▸ hlast)
  exact absurd hblank (by decide)

/-- A type that lasts stays, with quotation marks if it has a version. -/
theorem keepsTree_type {tag : Text} (h : LastsType tag) (hu : TypeToken.unwrapped tag = tag) :
    KeepsTree (some typeKey) (Control.treeOfType tag) := by
  obtain ⟨hhead, hend⟩ := edges_of_unwrapped hu
  have hmark : ∀ x, tag ≠ formulaMark :: x := by
    rintro x rfl
    exact absurd (hhead formulaMark rfl) (by decide)
  unfold Control.treeOfType
  split
  · have hs := style_of_forced_double false .str tag
    show KeepsLeaf (some typeKey) ⟨.str, tag, some .double⟩
    refine ⟨rfl, by simp [hs], by simp [hs], by simp [hs], by simp [hs], by simp [hs],
      fun x hx => absurd hx (hmark _), fun x hx => absurd hx (hmark _), fun _ _ hv => ?_⟩
    dsimp only at hv ⊢
    rw [withoutFeed_of_trimEnd hend] at hv
    obtain ⟨hsafe, hsign, hhash⟩ := h.version hv
    exact ⟨fun c hc => ⟨hsafe c hc, fun hn => (oneLine_versioned hv).1 (hn ▸ hc)⟩, hsign, hhash⟩
  · next hat =>
    have hat : TypeToken.versionSign ∉ tag := fun hn => hat (List.contains_iff_mem.2 hn)
    show KeepsLeaf (some typeKey) ⟨.str, tag, none⟩
    have hversion : isVersionedType (withoutFeed tag) ≠ true := by
      rw [withoutFeed_of_trimEnd hend, isVersionedType_of_not_mem hat]
      exact Bool.false_ne_true
    refine ⟨rfl, ?_, ?_, fun hs => ?_, fun _ _ _ _ => hend, fun hs => ?_,
      fun x hx => absurd hx (hmark _), fun x hx => absurd hx (hmark _),
      fun _ _ hv => absurd hv hversion⟩
    · rcases style_free tag with hs | ⟨hs, -⟩ | ⟨hs, -⟩ <;> simp [hs]
    · rcases style_free tag with hs | ⟨hs, -⟩ | ⟨hs, -⟩ <;> simp [hs]
    · exact h.unbroken hat (Word.isSingleText_of_style hs)
    · show tag.trimStart.head? ≠ _
      rw [Text.trimStart_eq hhead]
      exact h.sign hat (Word.isPlainText_of_style hs (ne_nil_of_plain rfl hs))

end Formula

/-! ## Values of properties -/

namespace Property

mutual

theorem unmarked_of_lasts : ∀ (p : Property) {key : Option Text}, p.Lasts key → p.Unmarked
  | .empty, _, _ => trivial
  | .formula _, _, h => h.mark
  | .bool _, _, _ => trivial
  | .int _, _, _ => trivial
  | .float _, _, _ => trivial
  | .string .., _, _ => trivial
  | .object entries, _, h => unmarked_of_lastsEntries entries h

theorem unmarked_of_lastsEntries : ∀ entries : List (Text × Property), LastsEntries entries →
    UnmarkedEntries entries
  | [], _ => trivial
  | (_, value) :: rest, h => ⟨unmarked_of_lasts value h.2.1, unmarked_of_lastsEntries rest h.2.2⟩

end

theorem keys_toTreeEntries (entries : List (Text × Property)) :
    (toTreeEntries entries).map (·.1.keyText) = entries.map (·.1) := by
  induction entries with
  | nil => rfl
  | cons e rest ih => exact congrArg (e.1 :: ·) ih

mutual

/-- The tree of a value that lasts stays. -/
theorem keepsTree_of_lasts : ∀ (p : Property) {key : Option Text}, p.WellFormed → p.Lasts key →
    KeepsTree key p.toTree
  | .empty, _, _, _ => trivial
  | .formula _, _, _, h => keepsTree_formula h
  | .bool _, _, _, _ => trivial
  | .int _, _, _, h => h
  | .float _, _, hw, _ => hw
  | .string t form, key, hw, h => by
    obtain rfl : form = .plain := hw
    exact keepsTree_text h
  | .object entries, _, hw, h => by
    refine ⟨?_, keepsEntries_of_lasts entries hw.2 h⟩
    rw [keys_toTreeEntries]
    exact hw.1

theorem keepsEntries_of_lasts : ∀ entries : List (Text × Property), WellFormedEntries entries →
    LastsEntries entries → KeepsEntries (toTreeEntries entries)
  | [], _, _ => trivial
  | (key, value) :: rest, hw, h =>
    ⟨⟨key, rfl, h.1⟩, keepsTree_of_lasts value hw.1 h.2.1, keepsEntries_of_lasts rest hw.2 h.2.2⟩

end

end Property

/-! ## Further parts and controls -/

namespace Control

mutual

theorem unmarked_of_lasts : ∀ (value : PlainValue) {key : Option Text}, Lasts key value →
    Unmarked value
  | .null, _, _ => trivial
  | .bool _, _, _ => trivial
  | .int _, _, _ => trivial
  | .float _, _, _ => trivial
  | .text .., _, _ => trivial
  | .bytes _, _, _ => trivial
  | .moment _, _, _ => trivial
  | .list items, _, h => unmarked_of_lastsItems items h
  | .tuple _, _, _ => trivial
  | .set _, _, _ => trivial
  | .map entries, _, h => unmarked_of_lastsEntries entries h
  | .foreign (.property value), _, h => value.unmarked_of_lasts h
  | .foreign (.unknown ..), _, _ => trivial

theorem unmarked_of_lastsItems : ∀ items : List PlainValue, LastsItems items → UnmarkedItems items
  | [], _ => trivial
  | item :: rest, h => ⟨unmarked_of_lasts item h.1, unmarked_of_lastsItems rest h.2⟩

theorem unmarked_of_lastsEntries : ∀ entries : List (PlainValue × PlainValue),
    LastsEntries entries → UnmarkedEntries entries
  | [], _ => trivial
  | (_, value) :: rest, h => ⟨unmarked_of_lasts value h.2.1, unmarked_of_lastsEntries rest h.2.2⟩

end

theorem keys_treesOfEntries (entries : List (PlainValue × PlainValue)) :
    (treesOfEntries entries).map (·.1.keyText) = entries.map (·.1.keyText) := by
  induction entries with
  | nil => rfl
  | cons e rest ih => exact congrArg (e.1.keyText :: ·) ih

mutual

/-- The tree of a further part that lasts stays. -/
theorem keepsTree_of_lasts : ∀ (value : PlainValue) {key : Option Text}, Normal value →
    Lasts key value → KeepsTree key (treeOfExtra value)
  | .null, _, _, _ => trivial
  | .bool _, _, _, _ => trivial
  | .int _, _, _, h => h
  | .float _, _, hn, _ => hn
  | .text t form, _, hn, h => by
    obtain rfl : form = .plain := hn
    exact keepsTree_text h
  | .bytes _, _, _, h => h.elim
  | .moment _, _, _, h => h.elim
  | .list items, _, hn, h => keepsItems_of_lasts items hn h
  | .tuple _, _, _, h => h.elim
  | .set _, _, _, h => h.elim
  | .map entries, _, hn, h => by
    refine ⟨?_, keepsEntries_of_lasts entries hn.2 h⟩
    rw [keys_treesOfEntries]
    exact hn.1
  | .foreign value, _, hn, h => by
    obtain ⟨e, rfl⟩ := hn
    exact keepsTree_formula h

theorem keepsItems_of_lasts : ∀ items : List PlainValue, NormalItems items → LastsItems items →
    KeepsItems (treesOfItems items)
  | [], _, _ => trivial
  | item :: rest, hn, h =>
    ⟨keepsTree_of_lasts item hn.1 h.1, keepsItems_of_lasts rest hn.2 h.2⟩

theorem keepsEntries_of_lasts : ∀ entries : List (PlainValue × PlainValue), NormalEntries entries →
    LastsEntries entries → KeepsEntries (treesOfEntries entries)
  | [], _, _ => trivial
  | (key, value) :: rest, hn, h => by
    obtain ⟨⟨k, rfl⟩, hv, hr⟩ := hn
    exact ⟨⟨k, rfl, h.1⟩, keepsTree_of_lasts value hv h.2.1, keepsEntries_of_lasts rest hr h.2.2⟩

end

variable {c : Control}

theorem IsLasting.freeOfMarks (h : c.IsLasting) : c.FreeOfMarks where
  properties := Property.unmarked_of_lastsEntries _ h.properties
  extras e he := unmarked_of_lasts _ (h.extras e he)

/-- What stands under a key of a control that lasts stays. -/
theorem keepsTree_part (hw : c.WellFormed) (h : c.IsLasting) {k : Text} (hk : k ∈ c.keyOrder) :
    KeepsTree (some k) (c.part k) := by
  unfold part
  split
  · next ht =>
    rw [ht]
    exact keepsTree_type h.type hw.unwrapped
  · next ht =>
    split
    · refine ⟨?_, Property.keepsEntries_of_lasts _ hw.values h.properties⟩
      rw [Property.keys_toTreeEntries]
      exact hw.distinct
    · next hp =>
      have hmem : (k, c.extra k) ∈ c.extras := by
        rw [← extras_eq hw]
        refine List.mem_map_of_mem (f := fun k => (k, c.extra k)) (List.mem_filter.2 ⟨hk, ?_⟩)
        simp [isFurtherKey, ht, hp]
      exact keepsTree_of_lasts _ (hw.normal _ hmem) (h.extras _ hmem)

/-- The tree of a control that lasts stays. -/
theorem keepsTree_toTree (hw : c.WellFormed) (h : c.IsLasting) (key : Option Text) :
    KeepsTree key c.toTree := by
  rw [toTree_eq hw]
  refine ⟨by simpa [Function.comp_def, Yaml.Tree.keyText] using hw.keys, ?_⟩
  have hentries : ∀ ks : List Text, (∀ k ∈ ks, k ∈ c.keyOrder) →
      KeepsEntries (ks.map fun k => ((.text k .plain : PlainValue), c.part k)) := by
    intro ks
    induction ks with
    | nil => exact fun _ => trivial
    | cons k rest ih =>
      intro hks
      have hk := hks k List.mem_cons_self
      exact ⟨⟨k, rfl, h.fits k hk⟩, keepsTree_part hw h hk,
        ih fun k hk => hks k (List.mem_cons_of_mem _ hk)⟩
  exact hentries _ fun k hk => hk

end Control

/-! ## Documents -/

namespace Document

variable {d : Document}

/-- The tree of a document that lasts stays. -/
theorem keepsTree_toTree (hw : d.WellFormed) (h : d.IsLasting) : KeepsTree none d.toTree := by
  obtain ⟨controls, asSequence⟩ := d
  have hentries : ∀ es : Table Control, (∀ e ∈ es, e ∈ controls) →
      KeepsItems ((es.map declaration).map fun e => Yaml.Tree.map [e])
        ∧ KeepsEntries (es.map declaration) := by
    intro es
    induction es with
    | nil => exact fun _ => ⟨trivial, trivial⟩
    | cons e rest ih =>
      intro hes
      have he := hes e List.mem_cons_self
      have hkey : ∃ k, (declaration e).1 = .text k .plain ∧ KeepsKey k := ⟨e.1, rfl, h.names e he⟩
      have htree := Control.keepsTree_toTree (hw.controls e he) (h.controls e he)
        (some (declaration e).1.keyText)
      obtain ⟨hitems, hrest⟩ := ih fun e he => hes e (List.mem_cons_of_mem _ he)
      exact ⟨⟨⟨List.nodup_singleton _, hkey, htree, trivial⟩, hitems⟩, hkey, htree, hrest⟩
  cases asSequence with
  | true => exact (hentries controls fun e he => he).1
  | false =>
    refine ⟨?_, (hentries controls fun e he => he).2⟩
    have hd := hw.distinct
    simpa [Table.keys, Function.comp_def, Yaml.Tree.keyText] using hd

theorem IsLasting.freeOfMarks (h : d.IsLasting) : d.FreeOfMarks :=
  fun e he => (h.controls e he).freeOfMarks

/-- A document that is read from a text and lasts is written, and what is written is read as the
document again. -/
theorem parse_render_of_lasts {t : Text} (h : parse t = .ok d) (hl : d.IsLasting) :
    ∃ u, render d = .ok u ∧ parse u = .ok d := by
  have hw : d.WellFormed := wellFormed_of_parse h (fun e he => (hl.controls e he).keys)
    (fun e he => (hl.controls e he).unwrapped) fun e he => (hl.controls e he).nonblank
  exact parse_render_of_keeps hw hl.freeOfMarks (keepsTree_toTree hw hl)

/-- A button with a formula and a text. -/
def buttonText : Text :=
  "- B:\n    Control: X@1\n    Properties:\n      T: =F\n      S: a b\n".toList

/-- The button as a document. -/
def button : Document :=
  .single "B".toList
    ⟨"X@1".toList, [("T".toList, .formula "F".toList), ("S".toList, .string "a b".toList .plain)],
      [], [typeKey, propertiesKey]⟩ true

theorem keepsKey_of_plain {k : Text} (h : Leaf.key? ⟨.str, k, none⟩ = some k)
    (hl : k.length ≤ Lexer.keyReach) : KeepsKey k := ⟨k, h, hl⟩

theorem button_isLasting : button.IsLasting where
  names := by
    intro e he
    obtain rfl := List.mem_singleton.1 he
    exact keepsKey_of_plain (by decide +kernel) (by decide +kernel)
  controls := by
    intro e he
    obtain rfl := List.mem_singleton.1 he
    refine ⟨by decide +kernel, ?_, by decide +kernel, by decide +kernel, ⟨?_, ?_, ?_⟩, ?_, ?_⟩
    · intro k hk
      rcases List.mem_cons.1 hk with rfl | hk
      · exact keepsKey_of_plain (by decide +kernel) (by decide +kernel)
      · obtain rfl := List.mem_singleton.1 hk
        exact keepsKey_of_plain (by decide +kernel) (by decide +kernel)
    · exact fun h => absurd h (by decide +kernel)
    · exact fun h => absurd h (by decide +kernel)
    · exact fun _ => ⟨by decide +kernel, by decide +kernel, by decide +kernel⟩
    · refine ⟨keepsKey_of_plain (by decide +kernel) (by decide +kernel),
        ⟨by decide +kernel, fun _ => by decide +kernel, fun h => absurd h (by decide +kernel)⟩,
        keepsKey_of_plain (by decide +kernel) (by decide +kernel), ⟨?_, ?_, ?_, ?_⟩, trivial⟩
      · exact fun _ h => absurd h (by decide +kernel)
      · exact fun _ k _ _ => by decide +kernel
      · have hhead : "a b".toList.head? ≠ some formulaMark := by decide +kernel
        exact fun x hx => absurd (congrArg List.head? hx) hhead
      · exact fun hk => absurd hk (by decide +kernel)
    · exact fun e he => nomatch he

theorem parse_render_button : parse buttonText = .ok button ∧ button.IsLasting
    ∧ ∃ u, render button = .ok u ∧ parse u = .ok button :=
  have h : parse buttonText = .ok button := by decide +kernel
  ⟨h, button_isLasting, parse_render_of_lasts h button_isLasting⟩

/-- A button with a text of two lines that are divided by the character U+0085. -/
def brokenText : Text :=
  "- B:\n    Control: X@1\n    Properties:\n      T: \"a\\Nb\"\n".toList

/-- That text is written on two lines between single quotation marks, and is read as one line. -/
theorem not_parse_render : ¬ ∀ t d, parse t = .ok d → ∃ u, render d = .ok u ∧ parse u = .ok d := by
  intro h
  have hparse : parse brokenText = .ok (.single "B".toList
      ⟨"X@1".toList, [("T".toList, .string ['a', '\u0085', 'b'] .plain)], [],
        [typeKey, propertiesKey]⟩ true) := by decide +kernel
  obtain ⟨u, hu, hp⟩ := h _ _ hparse
  have hrender : render (.single "B".toList
      ⟨"X@1".toList, [("T".toList, .string ['a', '\u0085', 'b'] .plain)], [],
        [typeKey, propertiesKey]⟩ true)
      = .ok "- B:\n    Control: X@1\n    Properties:\n      T: 'a\u0085        b'\n".toList := by
    decide +kernel
  obtain rfl := Except.ok.inj (hu.symm.trans hrender)
  exact absurd hp (by decide +kernel)

end Document

end ModernControls
