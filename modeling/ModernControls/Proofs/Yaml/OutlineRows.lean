import Mathlib.Data.List.Chain
import ModernControls.Proofs.Yaml.Outline

/-!
# The rows of outlines

A text of an outline is read line by line where formulas are put in and taken out. Its rows say what
stands on each line: blanks, dashes, perhaps a key, and a line end. A line end can be replaced by
another one in its row, and nothing else on any line changes.

Results:
- `write_textRows`: the text of an outline is that of the lines of its rows;
- `textRows_relabel`: replacing line ends replaces them in the rows;
- `nested_textRows`: a row that nothing belongs to is followed by one that stands no further to the
  right;
- `sound_of_textRows`: an outline is sound if its rows are.
-/
namespace ModernControls.Yaml

open Layout (Place)

/-- What stands on a line before its end: blanks, the dashes of items that begin on the line, and
the dash of an item or a key with its colon. -/
structure Head where
  margin : Nat
  dashes : Nat
  key : Option Word

namespace Head

/-- The column of what comes last. -/
def column (h : Head) : Nat := h.margin + Layout.step * h.dashes

/-- What stands before what comes last. -/
def lead (h : Head) : Text :=
  Text.spaces h.margin ++ (List.replicate h.dashes ['-', ' ']).flatten

/-- What comes last. -/
def mark (h : Head) : Text :=
  match h.key with
  | none => ['-']
  | some w => w.written ++ [':']

/-- The text of a head. -/
def text (h : Head) : Text := h.lead ++ h.mark

/-- Where a node behind a head stands. -/
def place (h : Head) : Place :=
  match h.key with
  | none => .item
  | some _ => .value

/-- The margin and the dashes before the first line of a collection behind a head. -/
def inner (h : Head) : Nat × Nat :=
  match h.key with
  | none => (h.margin, h.dashes + 1)
  | some _ => (h.column + Layout.step, 0)

end Head

/-- A line of an outline, with the block below it if its end begins one. -/
structure Row where
  head : Head
  last : LineEnd

/-- The lines that come before a collection behind a head. -/
def Head.opening (h : Head) : List Row :=
  match h.key with
  | none => []
  | some _ => [⟨h, .nothing⟩]

theorem head_of_opening {h : Head} {r : Row} (hr : r ∈ h.opening) :
    r.head = h ∧ r.last = .nothing := by
  rw [Head.opening] at hr
  split at hr
  · cases hr
  · rw [List.mem_singleton.1 hr]
    exact ⟨rfl, rfl⟩

/-- The text of a row. -/
def Row.write (r : Row) : Text := r.head.text ++ r.last.write (r.head.column + Layout.step)

namespace Outline

mutual

/-- Whether every list and every map holds something. -/
def Filled : Outline → Prop
  | leaf _ => True
  | list items => items ≠ [] ∧ FilledItems items
  | map entries => entries ≠ [] ∧ FilledEntries entries

/-- Whether this is so in all items. -/
def FilledItems : List Outline → Prop
  | [] => True
  | item :: rest => Filled item ∧ FilledItems rest

/-- Whether this is so in all values. -/
def FilledEntries : List (Word × Outline) → Prop
  | [] => True
  | (_, value) :: rest => Filled value ∧ FilledEntries rest

end

mutual

/-- The rows of an outline behind a head. -/
def rows (h : Head) : Outline → List Row
  | leaf last => [⟨h, last⟩]
  | list items => h.opening ++ itemRows h.inner.1 h.inner.2 items
  | map entries => h.opening ++ entryRows h.inner.1 h.inner.2 entries

/-- The rows of items, the first after a margin and dashes. -/
def itemRows (margin dashes : Nat) : List Outline → List Row
  | [] => []
  | item :: rest =>
    rows ⟨margin, dashes, none⟩ item ++ itemRows (margin + Layout.step * dashes) 0 rest

/-- The rows of entries, the first after a margin and dashes. -/
def entryRows (margin dashes : Nat) : List (Word × Outline) → List Row
  | [] => []
  | (key, value) :: rest =>
    rows ⟨margin, dashes, some key⟩ value ++ entryRows (margin + Layout.step * dashes) 0 rest

end

mutual

/-- An outline with other line ends. -/
def relabel (f : Head → LineEnd → LineEnd) (h : Head) : Outline → Outline
  | leaf last => leaf (f h last)
  | list items => list (relabelItems f h.inner.1 h.inner.2 items)
  | map entries => map (relabelEntries f h.inner.1 h.inner.2 entries)

/-- Items with other line ends. -/
def relabelItems (f : Head → LineEnd → LineEnd) (margin dashes : Nat) :
    List Outline → List Outline
  | [] => []
  | item :: rest =>
    relabel f ⟨margin, dashes, none⟩ item
      :: relabelItems f (margin + Layout.step * dashes) 0 rest

/-- Entries with other line ends. -/
def relabelEntries (f : Head → LineEnd → LineEnd) (margin dashes : Nat) :
    List (Word × Outline) → List (Word × Outline)
  | [] => []
  | (key, value) :: rest =>
    (key, relabel f ⟨margin, dashes, some key⟩ value)
      :: relabelEntries f (margin + Layout.step * dashes) 0 rest

end

/-! ## The text of rows -/

theorem spaces_column (margin dashes : Nat) (key : Option Word) :
    Text.spaces (margin + Layout.step * dashes)
      = (⟨margin + Layout.step * dashes, 0, key⟩ : Head).lead := by
  simp [Head.lead]

/-- What stands before a collection behind a head is the head and what opens the collection. -/
theorem text_lead (h : Head) (key : Option Word) :
    h.text ++ h.place.lead (h.column + Layout.step)
      = h.opening.flatMap Row.write ++ (⟨h.inner.1, h.inner.2, key⟩ : Head).lead
        ∧ h.inner.1 + Layout.step * h.inner.2 = h.column + Layout.step := by
  obtain ⟨margin, dashes, last⟩ := h
  cases last with
  | none =>
    refine ⟨?_, ?_⟩
    · simp [Head.text, Head.mark, Head.place, Place.lead, Head.opening, Head.inner, Head.lead,
        List.replicate_succ']
    · simp [Head.inner, Head.column, Layout.step]
      omega
  | some w =>
    refine ⟨?_, by simp [Head.inner]⟩
    simp [Head.text, Head.mark, Head.place, Place.lead, Head.opening, Head.inner, Head.lead,
      Row.write, LineEnd.write]

theorem append_writeItems (before lead : Text) (indent : Nat) {items : List Outline}
    (h : items ≠ []) :
    before ++ writeItems lead indent items = writeItems (before ++ lead) indent items := by
  obtain ⟨item, rest, rfl⟩ := List.exists_cons_of_ne_nil h
  simp [writeItems]

theorem append_writeEntries (before lead : Text) (indent : Nat) {entries : List (Word × Outline)}
    (h : entries ≠ []) :
    before ++ writeEntries lead indent entries = writeEntries (before ++ lead) indent entries := by
  obtain ⟨⟨key, value⟩, rest, rfl⟩ := List.exists_cons_of_ne_nil h
  simp [writeEntries]

mutual

theorem write_rows : ∀ (o : Outline) (h : Head), o.Filled →
    h.text ++ o.write h.place (h.column + Layout.step) = (o.rows h).flatMap Row.write
  | leaf last, h, _ => by simp [write, rows, Row.write]
  | list items, h, hf => by
    obtain ⟨hlead, hcol⟩ := text_lead h none
    rw [rows, List.flatMap_append, ← writeItems_rows items h.inner.1 h.inner.2 hf.2, hcol, write,
      append_writeItems _ _ _ hf.1, append_writeItems _ _ _ hf.1, hlead]
  | map entries, h, hf => by
    obtain ⟨hlead, hcol⟩ := text_lead h none
    rw [rows, List.flatMap_append, ← writeEntries_rows entries h.inner.1 h.inner.2 hf.2, hcol,
      write, append_writeEntries _ _ _ hf.1, append_writeEntries _ _ _ hf.1, hlead]

theorem writeItems_rows : ∀ (items : List Outline) (margin dashes : Nat), FilledItems items →
    writeItems (⟨margin, dashes, none⟩ : Head).lead (margin + Layout.step * dashes) items
      = (itemRows margin dashes items).flatMap Row.write
  | [], _, _, _ => rfl
  | item :: rest, margin, dashes, hf => by
    have hi := write_rows item ⟨margin, dashes, none⟩ hf.1
    have hr := writeItems_rows rest (margin + Layout.step * dashes) 0 hf.2
    rw [writeItems, itemRows, List.flatMap_append, ← hi, ← hr]
    simp [Head.text, Head.mark, Head.place, Head.column, spaces_column _ _ none]

theorem writeEntries_rows : ∀ (entries : List (Word × Outline)) (margin dashes : Nat),
    FilledEntries entries →
      writeEntries (⟨margin, dashes, none⟩ : Head).lead (margin + Layout.step * dashes) entries
        = (entryRows margin dashes entries).flatMap Row.write
  | [], _, _, _ => rfl
  | (key, value) :: rest, margin, dashes, hf => by
    have hi := write_rows value ⟨margin, dashes, some key⟩ hf.1
    have hr := writeEntries_rows rest (margin + Layout.step * dashes) 0 hf.2
    rw [writeEntries, entryRows, List.flatMap_append, ← hi, ← hr]
    simp [Head.text, Head.mark, Head.place, Head.column, Head.lead]

end

/-! ## Other line ends -/

theorem opening_relabel {f : Head → LineEnd → LineEnd} (hf : ∀ h, f h .nothing = .nothing)
    (h : Head) : h.opening.map (fun r => ⟨r.head, f r.head r.last⟩) = h.opening := by
  rw [Head.opening]
  split
  · rfl
  · simp [hf]

mutual

theorem filled_relabel (f : Head → LineEnd → LineEnd) : ∀ (o : Outline) (h : Head),
    o.Filled → (o.relabel f h).Filled
  | leaf _, _, _ => trivial
  | list [], _, hf => absurd rfl hf.1
  | map [], _, hf => absurd rfl hf.1
  | list (item :: rest), h, hf => ⟨by simp [relabelItems], filled_relabelItems f _ _ _ hf.2⟩
  | map ((key, value) :: rest), h, hf =>
    ⟨by simp [relabelEntries], filled_relabelEntries f _ _ _ hf.2⟩

theorem filled_relabelItems (f : Head → LineEnd → LineEnd) :
    ∀ (items : List Outline) (margin dashes : Nat),
      FilledItems items → FilledItems (relabelItems f margin dashes items)
  | [], _, _, _ => trivial
  | item :: rest, _, _, hf => ⟨filled_relabel f item _ hf.1, filled_relabelItems f rest _ _ hf.2⟩

theorem filled_relabelEntries (f : Head → LineEnd → LineEnd) :
    ∀ (entries : List (Word × Outline)) (margin dashes : Nat),
      FilledEntries entries → FilledEntries (relabelEntries f margin dashes entries)
  | [], _, _, _ => trivial
  | (_, value) :: rest, _, _, hf =>
    ⟨filled_relabel f value _ hf.1, filled_relabelEntries f rest _ _ hf.2⟩

end

mutual

theorem rows_relabel {f : Head → LineEnd → LineEnd} (hf : ∀ h, f h .nothing = .nothing) :
    ∀ (o : Outline) (h : Head),
      (o.relabel f h).rows h = (o.rows h).map fun r => ⟨r.head, f r.head r.last⟩
  | leaf _, _ => rfl
  | list items, h => by
    rw [relabel, rows, rows, itemRows_relabel hf items, List.map_append, opening_relabel hf]
  | map entries, h => by
    rw [relabel, rows, rows, entryRows_relabel hf entries, List.map_append, opening_relabel hf]

theorem itemRows_relabel {f : Head → LineEnd → LineEnd} (hf : ∀ h, f h .nothing = .nothing) :
    ∀ (items : List Outline) (margin dashes : Nat),
      itemRows margin dashes (relabelItems f margin dashes items)
        = (itemRows margin dashes items).map fun r => ⟨r.head, f r.head r.last⟩
  | [], _, _ => rfl
  | item :: rest, margin, dashes => by
    rw [relabelItems, itemRows, itemRows, List.map_append, rows_relabel hf item,
      itemRows_relabel hf rest]

theorem entryRows_relabel {f : Head → LineEnd → LineEnd} (hf : ∀ h, f h .nothing = .nothing) :
    ∀ (entries : List (Word × Outline)) (margin dashes : Nat),
      entryRows margin dashes (relabelEntries f margin dashes entries)
        = (entryRows margin dashes entries).map fun r => ⟨r.head, f r.head r.last⟩
  | [], _, _ => rfl
  | (key, value) :: rest, margin, dashes => by
    rw [relabelEntries, entryRows, entryRows, List.map_append, rows_relabel hf value,
      entryRows_relabel hf rest]

end

end Outline

namespace Outline

/-! ## What rows say about an outline -/

/-- Whether a row is read as it is meant: its key is seen as one, and so is its end. -/
def SoundRow (r : Row) : Prop :=
  (∀ w, r.head.key = some w → w.Sound ∧ w.written.length ≤ Lexer.keyReach) ∧ r.last.Sound

/-- A key has a row of its own. -/
theorem head_mem_rows {h : Head} (hk : h.key ≠ none) (o : Outline) :
    ∃ last, (⟨h, last⟩ : Row) ∈ o.rows h := by
  obtain ⟨w, hw⟩ := Option.ne_none_iff_exists'.1 hk
  cases o with
  | leaf last => exact ⟨last, List.mem_singleton.2 rfl⟩
  | list items => exact ⟨.nothing, by simp [rows, Head.opening, hw]⟩
  | map entries => exact ⟨.nothing, by simp [rows, Head.opening, hw]⟩

mutual

theorem sound_of_rows : ∀ (o : Outline) (h : Head), o.Filled →
    (∀ r ∈ o.rows h, SoundRow r) → o.Sound
  | leaf last, h, _, hr => (hr ⟨h, last⟩ (List.mem_singleton.2 rfl)).2
  | list items, _, hf, hr =>
    ⟨hf.1, sound_of_itemRows items _ _ hf.2 fun r hm => hr r (List.mem_append_right _ hm)⟩
  | map entries, _, hf, hr =>
    ⟨hf.1, sound_of_entryRows entries _ _ hf.2 fun r hm => hr r (List.mem_append_right _ hm)⟩

theorem sound_of_itemRows : ∀ (items : List Outline) (margin dashes : Nat), FilledItems items →
    (∀ r ∈ itemRows margin dashes items, SoundRow r) → SoundItems items
  | [], _, _, _, _ => trivial
  | item :: rest, _, _, hf, hr =>
    ⟨sound_of_rows item _ hf.1 fun r hm => hr r (List.mem_append_left _ hm),
      sound_of_itemRows rest _ _ hf.2 fun r hm => hr r (List.mem_append_right _ hm)⟩

theorem sound_of_entryRows : ∀ (entries : List (Word × Outline)) (margin dashes : Nat),
    FilledEntries entries → (∀ r ∈ entryRows margin dashes entries, SoundRow r) →
      SoundEntries entries
  | [], _, _, _, _ => trivial
  | (key, value) :: rest, margin, dashes, hf, hr => by
    obtain ⟨last, hlast⟩ := head_mem_rows (h := ⟨margin, dashes, some key⟩) (by simp) value
    exact ⟨(hr _ (List.mem_append_left _ hlast)).1 key rfl,
      sound_of_rows value _ hf.1 fun r hm => hr r (List.mem_append_left _ hm),
      sound_of_entryRows rest _ _ hf.2 fun r hm => hr r (List.mem_append_right _ hm)⟩

end

/-! ## Where rows stand -/

/-- How two rows that follow each other stand: unless something belongs to the first one, the
second one begins no further to the right. -/
def Nested (r s : Row) : Prop := r.last = .nothing ∨ s.head.margin ≤ r.head.column

theorem column_inner (h : Head) :
    h.inner.1 + Layout.step * h.inner.2 = h.column + Layout.step := (text_lead h none).2

mutual

/-- No row of an outline stands to the left of its head. -/
theorem column_le : ∀ (o : Outline) (h : Head), ∀ r ∈ o.rows h, h.column ≤ r.head.column
  | leaf last, h, r, hr => by rw [List.mem_singleton.1 hr]
  | list items, h, r, hr => by
    rcases List.mem_append.1 hr with hr | hr
    · rw [(head_of_opening hr).1]
    · have := column_le_items items h.inner.1 h.inner.2 r hr
      rw [column_inner] at this
      omega
  | map entries, h, r, hr => by
    rcases List.mem_append.1 hr with hr | hr
    · rw [(head_of_opening hr).1]
    · have := column_le_entries entries h.inner.1 h.inner.2 r hr
      rw [column_inner] at this
      omega

theorem column_le_items : ∀ (items : List Outline) (margin dashes : Nat),
    ∀ r ∈ itemRows margin dashes items, margin + Layout.step * dashes ≤ r.head.column
  | [], _, _, _, hr => nomatch hr
  | item :: rest, margin, dashes, r, hr => by
    rcases List.mem_append.1 hr with hr | hr
    · exact column_le item ⟨margin, dashes, none⟩ r hr
    · exact column_le_items rest (margin + Layout.step * dashes) 0 r hr

theorem column_le_entries : ∀ (entries : List (Word × Outline)) (margin dashes : Nat),
    ∀ r ∈ entryRows margin dashes entries, margin + Layout.step * dashes ≤ r.head.column
  | [], _, _, _, hr => nomatch hr
  | (key, value) :: rest, margin, dashes, r, hr => by
    rcases List.mem_append.1 hr with hr | hr
    · exact column_le value ⟨margin, dashes, some key⟩ r hr
    · exact column_le_entries rest (margin + Layout.step * dashes) 0 r hr

end

theorem margin_inner (h : Head) : h.margin ≤ h.inner.1 := by
  obtain ⟨margin, dashes, key⟩ := h
  cases key <;> simp [Head.inner, Head.column]
  omega

mutual

/-- No row of an outline begins to the left of its head. -/
theorem margin_le : ∀ (o : Outline) (h : Head), ∀ r ∈ o.rows h, h.margin ≤ r.head.margin
  | leaf last, h, r, hr => by rw [List.mem_singleton.1 hr]
  | list items, h, r, hr => by
    rcases List.mem_append.1 hr with hr | hr
    · rw [(head_of_opening hr).1]
    · exact (margin_inner h).trans (margin_le_items items h.inner.1 h.inner.2 r hr)
  | map entries, h, r, hr => by
    rcases List.mem_append.1 hr with hr | hr
    · rw [(head_of_opening hr).1]
    · exact (margin_inner h).trans (margin_le_entries entries h.inner.1 h.inner.2 r hr)

theorem margin_le_items : ∀ (items : List Outline) (margin dashes : Nat),
    ∀ r ∈ itemRows margin dashes items, margin ≤ r.head.margin
  | [], _, _, _, hr => nomatch hr
  | item :: rest, margin, dashes, r, hr => by
    rcases List.mem_append.1 hr with hr | hr
    · exact margin_le item ⟨margin, dashes, none⟩ r hr
    · exact (Nat.le_add_right _ _).trans (margin_le_items rest _ 0 r hr)

theorem margin_le_entries : ∀ (entries : List (Word × Outline)) (margin dashes : Nat),
    ∀ r ∈ entryRows margin dashes entries, margin ≤ r.head.margin
  | [], _, _, _, hr => nomatch hr
  | (key, value) :: rest, margin, dashes, r, hr => by
    rcases List.mem_append.1 hr with hr | hr
    · exact margin_le value ⟨margin, dashes, some key⟩ r hr
    · exact (Nat.le_add_right _ _).trans (margin_le_entries rest _ 0 r hr)

end

mutual

/-- The first row of an outline begins where its head does. -/
theorem margin_head : ∀ (o : Outline) (h : Head), o.Filled →
    ∃ r, (o.rows h).head? = some r ∧ r.head.margin = h.margin
  | leaf last, h, _ => ⟨⟨h, last⟩, rfl, rfl⟩
  | list items, h, hf => by
    obtain ⟨margin, dashes, key⟩ := h
    cases key with
    | some w => exact ⟨⟨⟨margin, dashes, some w⟩, .nothing⟩, rfl, rfl⟩
    | none => exact margin_head_items items margin (dashes + 1) hf.1 hf.2
  | map entries, h, hf => by
    obtain ⟨margin, dashes, key⟩ := h
    cases key with
    | some w => exact ⟨⟨⟨margin, dashes, some w⟩, .nothing⟩, rfl, rfl⟩
    | none => exact margin_head_entries entries margin (dashes + 1) hf.1 hf.2

theorem margin_head_items : ∀ (items : List Outline) (margin dashes : Nat), items ≠ [] →
    FilledItems items → ∃ r, (itemRows margin dashes items).head? = some r ∧ r.head.margin = margin
  | [], _, _, hne, _ => absurd rfl hne
  | item :: rest, margin, dashes, _, hf => by
    obtain ⟨r, hr, hm⟩ := margin_head item ⟨margin, dashes, none⟩ hf.1
    exact ⟨r, by simp [itemRows, hr], hm⟩

theorem margin_head_entries : ∀ (entries : List (Word × Outline)) (margin dashes : Nat),
    entries ≠ [] → FilledEntries entries →
      ∃ r, (entryRows margin dashes entries).head? = some r ∧ r.head.margin = margin
  | [], _, _, hne, _ => absurd rfl hne
  | (key, value) :: rest, margin, dashes, _, hf => by
    obtain ⟨r, hr, hm⟩ := margin_head value ⟨margin, dashes, some key⟩ hf.1
    exact ⟨r, by simp [entryRows, hr], hm⟩

end

theorem nested_opening {h : Head} {rs : List Row} (hrs : rs.IsChain Nested) :
    (h.opening ++ rs).IsChain Nested := by
  refine List.IsChain.append ?_ hrs fun r hr s _ => .inl (head_of_opening (List.mem_of_getLast? hr)).2
  rw [Head.opening]
  split
  · exact .nil
  · exact .singleton _

/-- What comes after an item or an entry stands no further to the right than what is in it. -/
theorem nested_append {rs ss : List Row} {column : Nat} (hrs : rs.IsChain Nested)
    (hss : ss.IsChain Nested) (hr : ∀ r ∈ rs, column ≤ r.head.column)
    (hs : ∀ s ∈ ss.head?, s.head.margin = column) : (rs ++ ss).IsChain Nested :=
  hrs.append hss fun r hm s hm' => .inr (by
    rw [hs s hm']
    exact hr r (List.mem_of_getLast? hm))

mutual

theorem nested_rows : ∀ (o : Outline) (h : Head), o.Filled → (o.rows h).IsChain Nested
  | leaf _, _, _ => .singleton _
  | list items, _, hf => nested_opening (nested_itemRows items _ _ hf.2)
  | map entries, _, hf => nested_opening (nested_entryRows entries _ _ hf.2)

theorem nested_itemRows : ∀ (items : List Outline) (margin dashes : Nat), FilledItems items →
    (itemRows margin dashes items).IsChain Nested
  | [], _, _, _ => .nil
  | [item], margin, dashes, hf => by
    rw [itemRows, itemRows, List.append_nil]
    exact nested_rows item ⟨margin, dashes, none⟩ hf.1
  | item :: next :: rest, margin, dashes, hf => by
    obtain ⟨r, hr, hm⟩ := margin_head_items (next :: rest) (margin + Layout.step * dashes) 0
      (by simp) hf.2
    refine nested_append (nested_rows item _ hf.1) (nested_itemRows (next :: rest) _ _ hf.2)
      (column_le item ⟨margin, dashes, none⟩) fun s hs => ?_
    obtain rfl : r = s := Option.some.inj (hr.symm.trans hs)
    exact hm

theorem nested_entryRows : ∀ (entries : List (Word × Outline)) (margin dashes : Nat),
    FilledEntries entries → (entryRows margin dashes entries).IsChain Nested
  | [], _, _, _ => .nil
  | [(key, value)], margin, dashes, hf => by
    rw [entryRows, entryRows, List.append_nil]
    exact nested_rows value ⟨margin, dashes, some key⟩ hf.1
  | (key, value) :: next :: rest, margin, dashes, hf => by
    obtain ⟨r, hr, hm⟩ := margin_head_entries (next :: rest) (margin + Layout.step * dashes) 0
      (by simp) hf.2
    refine nested_append (nested_rows value _ hf.1) (nested_entryRows (next :: rest) _ _ hf.2)
      (column_le value ⟨margin, dashes, some key⟩) fun s hs => ?_
    obtain rfl : r = s := Option.some.inj (hr.symm.trans hs)
    exact hm

end

mutual

/-- Replacing line ends twice is replacing them once. -/
theorem relabel_relabel (f g : Head → LineEnd → LineEnd) : ∀ (o : Outline) (h : Head),
    (o.relabel f h).relabel g h = o.relabel (fun h last => g h (f h last)) h
  | leaf _, _ => rfl
  | list items, h => by
    rw [relabel, relabel, relabel, relabelItems_relabelItems f g items]
  | map entries, h => by
    rw [relabel, relabel, relabel, relabelEntries_relabelEntries f g entries]

theorem relabelItems_relabelItems (f g : Head → LineEnd → LineEnd) :
    ∀ (items : List Outline) (margin dashes : Nat),
      relabelItems g margin dashes (relabelItems f margin dashes items)
        = relabelItems (fun h last => g h (f h last)) margin dashes items
  | [], _, _ => rfl
  | item :: rest, margin, dashes => by
    rw [relabelItems, relabelItems, relabelItems, relabel_relabel f g item,
      relabelItems_relabelItems f g rest]

theorem relabelEntries_relabelEntries (f g : Head → LineEnd → LineEnd) :
    ∀ (entries : List (Word × Outline)) (margin dashes : Nat),
      relabelEntries g margin dashes (relabelEntries f margin dashes entries)
        = relabelEntries (fun h last => g h (f h last)) margin dashes entries
  | [], _, _ => rfl
  | (key, value) :: rest, margin, dashes => by
    rw [relabelEntries, relabelEntries, relabelEntries, relabel_relabel f g value,
      relabelEntries_relabelEntries f g rest]

end

end Outline

/-! ## The lines of rows -/

namespace LineEnd

/-- What a line end is on its own line. -/
def first : LineEnd → Text
  | nothing => []
  | word w => ' ' :: w.written
  | formula e => ' ' :: '=' :: e
  | literal keeps _ => [' ', '|', Scalar.blockSign keeps]
  | brackets => [' ', '[', ']']
  | braces => [' ', '\x7b', '\x7d']

/-- The lines below. -/
def below (indent : Nat) : LineEnd → List Text
  | literal _ lines => lines.map fun l => if l.isEmpty then [] else Text.spaces indent ++ l
  | _ => []

theorem write_eq (last : LineEnd) (indent : Nat) :
    last.write indent = last.first ++ '\n' :: closedLines (last.below indent) := by
  cases last <;> simp [write, first, below, closedLines, blockText, List.flatMap_map]

end LineEnd

/-- The lines of a row. -/
def Row.lines (r : Row) : List Text :=
  (r.head.text ++ r.last.first) :: r.last.below (r.head.column + Layout.step)

theorem Row.write_eq (r : Row) : r.write = closedLines r.lines := by
  rw [Row.write, LineEnd.write_eq]
  simp [Row.lines, closedLines]

theorem closedLines_flatMap (rs : List Row) :
    rs.flatMap Row.write = closedLines (rs.flatMap Row.lines) := by
  induction rs with
  | nil => rfl
  | cons r rs ih =>
    rw [List.flatMap_cons, List.flatMap_cons, ih, Row.write_eq, closedLines, closedLines,
      closedLines, List.flatMap_append]

namespace Outline

/-- The rows of a whole text. -/
def textRows : Outline → List Row
  | leaf _ => []
  | list items => itemRows 0 0 items
  | map entries => entryRows 0 0 entries

/-- A whole text with other line ends. -/
def textRelabel (f : Head → LineEnd → LineEnd) : Outline → Outline
  | leaf last => leaf last
  | list items => list (relabelItems f 0 0 items)
  | map entries => map (relabelEntries f 0 0 entries)

theorem write_textRows {o : Outline} (hroot : ∀ last, o ≠ leaf last) (hf : o.Filled) :
    o.write .start 0 = closedLines (o.textRows.flatMap Row.lines) := by
  rw [← closedLines_flatMap]
  cases o with
  | leaf last => exact absurd rfl (hroot last)
  | list items => exact writeItems_rows items 0 0 hf.2
  | map entries => exact writeEntries_rows entries 0 0 hf.2

theorem nested_textRows {o : Outline} (hf : o.Filled) : o.textRows.IsChain Nested := by
  cases o with
  | leaf last => exact .nil
  | list items => exact nested_itemRows items 0 0 hf.2
  | map entries => exact nested_entryRows entries 0 0 hf.2

/-- An outline is sound if its rows are. -/
theorem sound_of_textRows {o : Outline} (hroot : ∀ last, o ≠ leaf last) (hf : o.Filled)
    (h : ∀ r ∈ o.textRows, SoundRow r) : o.Sound := by
  cases o with
  | leaf last => exact absurd rfl (hroot last)
  | list items => exact ⟨hf.1, sound_of_itemRows items 0 0 hf.2 h⟩
  | map entries => exact ⟨hf.1, sound_of_entryRows entries 0 0 hf.2 h⟩

theorem textRelabel_ne_leaf (f : Head → LineEnd → LineEnd) {o : Outline}
    (hroot : ∀ last, o ≠ leaf last) : ∀ last, o.textRelabel f ≠ leaf last := by
  intro last
  cases o with
  | leaf last' => exact absurd rfl (hroot last')
  | list items => simp [textRelabel]
  | map entries => simp [textRelabel]

theorem textRelabel_textRelabel (f g : Head → LineEnd → LineEnd) (o : Outline) :
    (o.textRelabel f).textRelabel g = o.textRelabel fun h last => g h (f h last) := by
  cases o with
  | leaf last => rfl
  | list items => rw [textRelabel, textRelabel, textRelabel, relabelItems_relabelItems]
  | map entries => rw [textRelabel, textRelabel, textRelabel, relabelEntries_relabelEntries]

theorem textRows_relabel {f : Head → LineEnd → LineEnd} (hf : ∀ h, f h .nothing = .nothing)
    (o : Outline) :
    (o.textRelabel f).textRows = o.textRows.map fun r => ⟨r.head, f r.head r.last⟩ := by
  cases o with
  | leaf last => rfl
  | list items => exact itemRows_relabel hf items 0 0
  | map entries => exact entryRows_relabel hf entries 0 0

theorem filled_textRelabel (f : Head → LineEnd → LineEnd) {o : Outline} (h : o.Filled) :
    (o.textRelabel f).Filled := by
  cases o with
  | leaf last => trivial
  | list items =>
    obtain ⟨item, rest, rfl⟩ := List.exists_cons_of_ne_nil h.1
    exact ⟨by simp [relabelItems], filled_relabelItems f _ _ _ h.2⟩
  | map entries =>
    obtain ⟨⟨key, value⟩, rest, rfl⟩ := List.exists_cons_of_ne_nil h.1
    exact ⟨by simp [relabelEntries], filled_relabelEntries f _ _ _ h.2⟩

end Outline

end ModernControls.Yaml

namespace ModernControls.Text

/-- Lines that are all closed are the lines of their text, but for an empty one at its end. -/
theorem lines_closedLines {ls : List Text} (h : ∀ l ∈ ls, '\n' ∉ l) :
    (Yaml.closedLines ls).lines = ls ++ [[]] := by
  induction ls with
  | nil => rfl
  | cons l ls ih =>
    have hl := h l List.mem_cons_self
    have ih := ih fun l hl => h l (List.mem_cons_of_mem _ hl)
    rw [Yaml.closedLines, List.flatMap_cons, ← Yaml.closedLines]
    clear h
    induction l with
    | nil =>
      show [] :: (Yaml.closedLines ls).lines = _
      rw [ih]
      rfl
    | cons c l ihl =>
      have hc : c ≠ '\n' := fun e => hl (e ▸ List.mem_cons_self)
      have := ihl fun hm => hl (List.mem_cons_of_mem _ hm)
      rw [lines] at this ⊢
      rw [List.cons_append, List.cons_append, split, if_neg hc, this]
      rfl

theorem ofLines_closed (ls : List Text) : ofLines (ls ++ [[]]) = Yaml.closedLines ls := by
  induction ls with
  | nil => rfl
  | cons l ls ih =>
    rw [Yaml.closedLines, List.flatMap_cons, ← Yaml.closedLines, ← ih]
    cases ls <;> simp [ofLines, join]

end ModernControls.Text
