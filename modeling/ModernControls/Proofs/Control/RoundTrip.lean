import ModernControls.Proofs.Formula.KeptTrees

/-!
# Documents that are read back

A document whose tree stays is written, and what is written is read as the document again.

Results:
- `textOf_weaken`: the text of a tree that stays is that of its restored outline;
- `treeOf_restoredText`: that text is read as a tree that agrees with the tree;
- `parse_render_of_weaken`, `parse_render_of_keeps`: a well-formed document whose tree stays is
  read back.
-/
namespace ModernControls

open Yaml Formula

namespace Formula

variable {α : Type}

/-- Whether a tree is that of a whole text: a list of maps with something in them, or such a
map. -/
def IsRoot : Yaml.Tree α → Prop
  | .list items => items ≠ [] ∧ ∀ item ∈ items, ∃ e es, item = .map (e :: es)
  | .map entries => entries ≠ []
  | _ => False

/-- The text of a tree with its formulas put back. -/
def restoredText (T : Yaml.Tree Empty) : Text :=
  ((Outline.ofTree T).textRelabel LineEnd.restored).write .start 0

variable {T : Yaml.Tree Empty}

theorem ofTree_ne_leaf (hr : IsRoot T) : ∀ last, Outline.ofTree T ≠ .leaf last := by
  intro last
  cases T with
  | list items =>
    obtain ⟨item, rest, rfl⟩ := List.exists_cons_of_ne_nil hr.1
    exact fun h => nomatch h
  | map entries =>
    obtain ⟨entry, rest, rfl⟩ := List.exists_cons_of_ne_nil hr
    exact fun h => nomatch h
  | _ => exact hr.elim

theorem textRow_stays (hr : IsRoot T) (hk : KeepsTree none T) :
    ∀ r ∈ (Outline.ofTree T).textRows, RowStays r := by
  cases T with
  | list items =>
    obtain ⟨item, rest, rfl⟩ := List.exists_cons_of_ne_nil hr.1
    exact itemRow_stays (item :: rest) 0 0 hk
  | map entries =>
    obtain ⟨entry, rest, rfl⟩ := List.exists_cons_of_ne_nil hr
    exact entryRow_stays (entry :: rest) 0 0 hk.2
  | _ => exact hr.elim

theorem render_of_keeps (hr : IsRoot T) (hk : KeepsTree none T) :
    Layout.render T = (Outline.ofTree T).write .start 0 := by
  cases T with
  | list items =>
    obtain ⟨item, rest, rfl⟩ := List.exists_cons_of_ne_nil hr.1
    exact Outline.render_list hr.1 (lined_of_keeps _ hk)
  | map entries =>
    obtain ⟨entry, rest, rfl⟩ := List.exists_cons_of_ne_nil hr
    exact Outline.render_map hr (lined_of_keeps _ hk)
  | _ => exact hr.elim

theorem row_sound {r : Row} (h : RowStays r) : r.head.Sound := fun w hw => (h.key w hw).1

/-- The text of a tree that stays is that of its restored outline. -/
theorem textOf_weaken (hr : IsRoot T) (hk : KeepsTree none T) :
    Document.textOf T.weaken = .ok (restoredText T) := by
  have hrows := textRow_stays hr hk
  rw [Document.textOf, Yaml.Tree.toText_weaken (isShort_of_keeps T none hk), render_of_keeps hr hk]
  dsimp only
  rw [Outline.unescape_write (ofTree_ne_leaf hr) (filled_ofTree T) fun r hm =>
    ⟨row_sound (hrows r hm), (hrows r hm).laid⟩]
  rfl

/-- The rows of the restored outline can be escaped. -/
theorem escapable_restored (hr : IsRoot T) (hk : KeepsTree none T) :
    ∀ r ∈ ((Outline.ofTree T).textRelabel LineEnd.restored).textRows,
      r.head.Sound ∧ r.last.Escapable r.head := by
  have hrows := textRow_stays hr hk
  intro r hm
  rw [Outline.textRows_relabel fun h => LineEnd.restored_of_ne (by simp) h] at hm
  obtain ⟨s, hs, rfl⟩ := List.mem_map.1 hm
  have hsound : s.head.Sound := row_sound (hrows s hs)
  exact ⟨hsound, (hrows s hs).escapable⟩

/-- The lines of the text of a tree are those of its restored rows, and they end with line feeds
alone. -/
theorem lines_restoredText (hr : IsRoot T) (hk : KeepsTree none T) :
    '\r' ∉ restoredText T ∧ (restoredText T).lines
      = ((Outline.ofTree T).textRelabel LineEnd.restored).textRows.flatMap Row.lines ++ [[]] := by
  have hroot := Outline.textRelabel_ne_leaf LineEnd.restored (ofTree_ne_leaf hr)
  have hfilled := Outline.filled_textRelabel LineEnd.restored (filled_ofTree T)
  have hrows := escapable_restored hr hk
  refine ⟨Outline.not_return_write hroot hfilled hrows, ?_⟩
  rw [restoredText, Outline.write_textRows hroot hfilled,
    Text.lines_closedLines fun l hl => (Outline.oneLine_textRows hrows l hl).1]

/-- Escaping the restored text gives the text of the settled outline. -/
theorem escape_restoredText (hr : IsRoot T) (hk : KeepsTree none T) :
    escape (restoredText T)
      = .ok (((Outline.ofTree T).textRelabel LineEnd.settled).write .start 0) := by
  have hsettled : ((Outline.ofTree T).textRelabel LineEnd.restored).textRelabel LineEnd.escaped
      = (Outline.ofTree T).textRelabel LineEnd.settled := Outline.textRelabel_textRelabel _ _ _
  rw [← hsettled]
  exact Outline.escape_write (Outline.textRelabel_ne_leaf _ (ofTree_ne_leaf hr))
    (Outline.filled_textRelabel _ (filled_ofTree T)) (escapable_restored hr hk)

/-- The settled outline is sound. -/
theorem sound_settled (hr : IsRoot T) (hk : KeepsTree none T) :
    ((Outline.ofTree T).textRelabel LineEnd.settled).Sound := by
  have hrows := textRow_stays hr hk
  have hnothing : ∀ h, LineEnd.settled h .nothing = .nothing := fun h => by
    rw [LineEnd.settled, LineEnd.restored_of_ne (by simp), LineEnd.escaped_nothing]
  refine Outline.sound_of_textRows (Outline.textRelabel_ne_leaf _ (ofTree_ne_leaf hr))
    (Outline.filled_textRelabel _ (filled_ofTree T)) fun r hm => ?_
  rw [Outline.textRows_relabel hnothing] at hm
  obtain ⟨s, hs, rfl⟩ := List.mem_map.1 hm
  exact ⟨(hrows s hs).key, (hrows s hs).sound⟩

/-- The items of a whole text are maps. -/
theorem maps_of_root {items : List (Yaml.Tree Empty)} (h : ∀ item ∈ items, ∃ e es, item = .map (e :: es))
    (f : Head → LineEnd → LineEnd) (margin dashes : Nat) :
    ∀ o ∈ Outline.relabelItems f margin dashes (Outline.ofItems items), ∃ entries, o = .map entries := by
  induction items generalizing margin dashes with
  | nil => exact fun _ ho => nomatch ho
  | cons item rest ih =>
    intro o ho
    rcases List.mem_cons.1 ho with rfl | ho
    · obtain ⟨e, es, rfl⟩ := h item List.mem_cons_self
      exact ⟨_, rfl⟩
    · exact ih (fun item hi => h item (List.mem_cons_of_mem _ hi)) _ _ o ho

/-- The text of the settled outline is read as a tree that agrees. -/
theorem ofText_settled (hr : IsRoot T) (hk : KeepsTree none T) : ∃ tree : PlainValue,
    Yaml.Tree.ofText .reduced
      (((Outline.ofTree T).textRelabel LineEnd.settled).write .start 0) = .ok tree
      ∧ Agrees T.weaken tree := by
  have hsound := sound_settled hr hk
  cases T with
  | list items =>
    obtain ⟨item, rest, rfl⟩ := List.exists_cons_of_ne_nil hr.1
    obtain ⟨trees, ht, ha⟩ := means_of_keepsItems (item :: rest) 0 0 hk
    refine ⟨.list trees, ?_, trees, rfl, ha⟩
    refine Outline.ofText_write_list hsound (keyed_of_keepsItems _ 0 0 hk) ?_ ?_
    · show (Outline.itemTrees? _).map Yaml.Tree.list = _
      rw [ht]
      rfl
    · exact maps_of_root hr.2 _ 0 0
  | map entries =>
    obtain ⟨entry, rest, rfl⟩ := List.exists_cons_of_ne_nil hr
    obtain ⟨trees, ht, ha⟩ := means_of_keepsEntries (entry :: rest) 0 0 hk.2
    refine ⟨.map trees, ?_, trees, rfl, ha⟩
    refine Outline.ofText_write_map hsound
      ⟨values_relabelEntries _ hk.2 0 0 ▸ hk.1, keyed_of_keepsEntries _ 0 0 hk.2⟩ ?_
    show (Outline.entryTrees? _).map Yaml.Tree.map = _
    rw [ht]
    rfl
  | _ => exact hr.elim

theorem treeOf_restoredText (hr : IsRoot T) (hk : KeepsTree none T) :
    ∃ tree, Document.treeOf (restoredText T) = .ok tree ∧ Agrees T.weaken tree := by
  obtain ⟨tree, ht, ha⟩ := ofText_settled hr hk
  refine ⟨tree, ?_, ha⟩
  rw [Document.treeOf, escape_restoredText hr hk]
  dsimp only
  rw [ht]

/-- Trees are put in for the values of each item. -/
theorem mem_substituteItems (put : Empty → Yaml.Tree α) {item : Yaml.Tree Empty}
    {items : List (Yaml.Tree Empty)} (h : item ∈ items) :
    item.substitute put ∈ Yaml.Tree.substituteItems put items := by
  induction items with
  | nil => exact absurd h List.not_mem_nil
  | cons i is ih =>
    rcases List.mem_cons.1 h with rfl | h
    · exact List.mem_cons_self
    · exact List.mem_cons_of_mem _ (ih h)

/-- A whole text is one when it is taken to hold nothing foreign. -/
theorem isRoot_of_weaken (h : IsRoot (T.weaken : Yaml.Tree α)) : IsRoot T := by
  cases T with
  | list items =>
    obtain ⟨hne, hmaps⟩ := h
    refine ⟨fun he => hne (by rw [he]; rfl), fun item hi => ?_⟩
    obtain ⟨e, es, he⟩ := hmaps _ (mem_substituteItems _ hi)
    cases item with
    | map entries =>
      cases entries with
      | nil => cases he
      | cons entry rest => exact ⟨entry, rest, rfl⟩
    | foreign value => exact value.elim
    | _ => cases he
  | map entries => exact fun he => h (by rw [he]; rfl)
  | foreign value => exact value.elim
  | _ => exact h.elim

end Formula

namespace Document

variable {d : Document}

theorem isRoot_toTree (hne : d.controls ≠ []) : IsRoot d.toTree := by
  obtain ⟨controls, asSequence⟩ := d
  cases asSequence with
  | true =>
    refine ⟨by simpa using hne, fun item hi => ?_⟩
    obtain ⟨e, -, rfl⟩ := List.mem_map.1 hi
    exact ⟨e, [], rfl⟩
  | false => simpa [IsRoot, toTree, nest] using hne

/-- The text of a well-formed document whose tree stays, and that it is read as the document
again. -/
theorem parse_render_of_weaken (hw : d.WellFormed) (hm : d.FreeOfMarks) {T : Yaml.Tree Empty}
    (hT : d.toTree = T.weaken) (hk : KeepsTree none T) :
    render d = .ok (restoredText T) ∧ parse (restoredText T) = .ok d := by
  have hr : IsRoot T := isRoot_of_weaken (α := Foreign) (hT ▸ isRoot_toTree hw.nonempty)
  obtain ⟨tree, htree, ha⟩ := treeOf_restoredText hr hk
  refine ⟨?_, ?_⟩
  · rw [render, hT]
    exact textOf_weaken hr hk
  · rw [parse]
    simp only [bind, Except.bind, htree]
    exact document_of_agrees hw hm (hT ▸ ha)

/-- A well-formed document whose tree stays is written, and what is written is read as the document
again. -/
theorem parse_render_of_keeps (hw : d.WellFormed) (hm : d.FreeOfMarks)
    (hk : KeepsTree none d.toTree) : ∃ u, render d = .ok u ∧ parse u = .ok d := by
  obtain ⟨T, hT, hkT⟩ := exists_weaken d.toTree none hk
  exact ⟨restoredText T, parse_render_of_weaken hw hm hT hkT⟩

end Document

end ModernControls
