import ModernControls.Proofs.Yaml.Outline

/-!
# The outlines of layouts

The layout of a tree whose scalars take one line each is the text of an outline: each scalar is a
word in the style that the layout chooses, and each key is one too.

Results:
- `sound_ofLeaf`: the words that the layout chooses are sound;
- `node_eq`: a node is laid out as its outline is written;
- `render_list`, `render_map`: so is a whole text.
-/
namespace ModernControls.Yaml

open Layout

namespace Layout

/-- Whether a leaf is written on one line and without its tag. -/
structure Leaf.OnLine (leaf : Leaf) : Prop where
  literal : leaf.style false ≠ .literal
  folded : leaf.style false ≠ .folded
  tag : leaf.style false = .plain ∨ leaf.tag = .str
  unbroken : leaf.style false = .single → isMultiline leaf.text = false

end Layout

namespace Word

/-- The word that a leaf is written as. -/
def ofLeaf (isKey : Bool) (leaf : Leaf) : Word :=
  match leaf.style isKey with
  | .plain => .plain leaf.text
  | .single => .single leaf.text
  | _ => .ofLayout leaf.text

@[simp] theorem value_ofLeaf (isKey : Bool) (leaf : Leaf) : (ofLeaf isKey leaf).value = leaf.text := by
  rw [ofLeaf]
  split
  · rfl
  · rfl
  · exact value_ofLayout leaf.text

theorem not_isFold_of_not_isMultiline {t : Text} (h : isMultiline t = false) :
    ∀ c ∈ t, isFold c = false := by
  simpa [isMultiline] using h

/-- Between single quotation marks only those marks are written otherwise than they are. -/
theorem single_eq {t : Text} (h : isMultiline t = false) (indent : Nat) :
    Layout.single indent t = (Word.single t).written := by
  have hbody : singleBody indent false t = t.flatMap Scalar.singleChar := by
    have hf := not_isFold_of_not_isMultiline h
    clear h
    induction t with
    | nil => rfl
    | cons c r ih =>
      rw [singleBody, if_neg (by simp [hf c List.mem_cons_self]),
        ih fun d hd => hf d (List.mem_cons_of_mem _ hd)]
      rfl
  rw [Layout.single, hbody, written]

/-- What is written plain may be. -/
theorem isPlainText_of_style {isKey : Bool} {leaf : Leaf} (h : leaf.style isKey = .plain)
    (hne : leaf.text ≠ []) : isPlainText leaf.text = true := by
  have hplain : leaf.mayBePlain isKey = true := by
    rw [Leaf.style] at h
    by_contra hn
    simp only [hn, and_false, if_false] at h
    split_ifs at h
  simpa [Leaf.mayBePlain, hne] using (Bool.and_eq_true_iff.1 hplain).2

/-- What is written between single quotation marks may be. -/
theorem isSingleText_of_style {isKey : Bool} {leaf : Leaf} (h : leaf.style isKey = .single) :
    isSingleText leaf.text = true := by
  rw [Leaf.style] at h
  split_ifs at h with _ _ _ _ h'
  exact h'.2.1

theorem sound_ofLeaf {isKey : Bool} {leaf : Leaf} (hne : leaf.style isKey = .plain → leaf.text ≠ [])
    (hl : leaf.style isKey = .single → isMultiline leaf.text = false) :
    (ofLeaf isKey leaf).Sound := by
  rw [ofLeaf]
  cases hs : leaf.style isKey with
  | plain => exact isPlainText_of_style hs (hne hs)
  | single =>
    intro c hc
    have hf := not_isFold_of_not_isMultiline (hl hs) c hc
    have ho := isSingleText_of_style hs
    simp only [isSingleText, keepsSpaces, Bool.and_eq_true, List.all_eq_true] at ho
    simp [isInline, ho.1.1 c hc, hf]
  | _ => exact sound_layout leaf.text

theorem key?_eq {leaf : Leaf} {text : Text} (h : leaf.key? = some text) :
    text = (ofLeaf true leaf).written ∧ (ofLeaf true leaf).Sound := by
  rw [Leaf.key?] at h
  split at h
  · cases h
  · next hn =>
    simp only [Bool.or_eq_true, List.isEmpty_iff, decide_eq_true_eq, not_or,
      Bool.not_eq_true] at hn
    refine ⟨?_, sound_ofLeaf (fun _ => hn.1.1) fun _ => hn.1.2⟩
    rw [ofLeaf]
    cases hs : leaf.style true with
    | plain => rw [hs] at h; exact (Option.some.inj h).symm
    | single =>
      rw [hs] at h
      rw [← single_eq hn.1.2 0]
      exact (Option.some.inj h).symm
    | _ =>
      rw [hs] at h
      rw [written_ofLayout]
      exact (Option.some.inj h).symm

end Word

/-- The line end that a leaf is written as. -/
def LineEnd.ofLeaf (leaf : Leaf) : LineEnd :=
  if leaf.style false = .plain ∧ leaf.text = [] then nothing else word (.ofLeaf false leaf)

theorem LineEnd.write_ofLeaf {leaf : Leaf} (h : leaf.OnLine) {place : Place} (hp : place ≠ .start)
    (indent n : Nat) : leaf.write place.gap n = (LineEnd.ofLeaf leaf).write indent := by
  have hgap : place.gap = [' '] := by
    cases place with
    | start => exact absurd rfl hp
    | _ => rfl
  have htag : leaf.needsTag (leaf.style false) = false := by
    rw [Leaf.needsTag]
    rcases h.tag with h | h <;> simp [h]
  rw [Leaf.write, htag, hgap, ofLeaf]
  simp only [Bool.false_eq_true, if_false, List.isEmpty_iff]
  split
  · rfl
  · rw [LineEnd.write, Word.ofLeaf]
    cases hs : leaf.style false with
    | plain => rfl
    | single => simp [Leaf.body, Word.single_eq (h.unbroken hs)]
    | double => simp [Leaf.body, Word.written_ofLayout]
    | literal => exact absurd hs h.literal
    | folded => exact absurd hs h.folded

namespace Outline

mutual

/-- The outline of a tree. -/
def ofTree : Tree Empty → Outline
  | .list [] => leaf .brackets
  | .list items => list (ofItems items)
  | .map [] => leaf .braces
  | .map entries => map (ofEntries entries)
  | tree =>
    match leaf? tree with
    | some l => leaf (.ofLeaf l)
    | none => leaf .nothing

/-- The outlines of items. -/
def ofItems : List (Tree Empty) → List Outline
  | [] => []
  | item :: rest => ofTree item :: ofItems rest

/-- The outlines of entries with their keys. -/
def ofEntries : List (Tree Empty × Tree Empty) → List (Word × Outline)
  | [] => []
  | (key, value) :: rest =>
    ((match leaf? key with
      | some l => .ofLeaf true l
      | none => .plain []), ofTree value) :: ofEntries rest

end

mutual

/-- Whether the scalars of a tree are written on one line each, and its keys too. -/
def Lined : Tree Empty → Prop
  | .list items => LinedItems items
  | .map entries => LinedEntries entries
  | .tuple _ => False
  | .set _ => False
  | tree => ∀ l ∈ leaf? tree, l.OnLine

/-- Whether this is so in all items. -/
def LinedItems : List (Tree Empty) → Prop
  | [] => True
  | item :: rest => Lined item ∧ LinedItems rest

/-- Whether keys are written on one line and this is so in all values. -/
def LinedEntries : List (Tree Empty × Tree Empty) → Prop
  | [] => True
  | (key, value) :: rest =>
    (∃ l text, leaf? key = some l ∧ l.key? = some text) ∧ Lined value ∧ LinedEntries rest

end

theorem node_leaf {tree : Tree Empty} {l : Leaf} {place : Place} (hp : place ≠ .start) (indent : Nat)
    (hn : node place indent tree = l.write place.gap (place.scalarIndent indent))
    (ho : ofTree tree = leaf (.ofLeaf l)) (h : l.OnLine) :
    node place indent tree = (ofTree tree).write place indent := by
  rw [hn, ho, LineEnd.write_ofLeaf h hp indent]
  rfl

theorem key?_of_leaf? {key : Tree Empty} {l : Leaf} (h : leaf? key = some l) :
    key? key = l.key? := by
  cases key with
  | list items => cases h
  | tuple items => cases h
  | map entries => cases h
  | _ => simp only [key?, h, Option.bind_some]

mutual

theorem node_eq : ∀ (tree : Tree Empty) {place : Place} (indent : Nat), Lined tree →
    place ≠ .start → node place indent tree = (ofTree tree).write place indent
  | .null, _, indent, h, hp => node_leaf hp indent rfl rfl (h _ rfl)
  | .bool b, _, indent, h, hp => node_leaf hp indent rfl rfl (h _ rfl)
  | .int n, _, indent, h, hp => node_leaf hp indent rfl rfl (h _ rfl)
  | .float x, _, indent, h, hp => node_leaf hp indent rfl rfl (h _ rfl)
  | .text t form, _, indent, h, hp => node_leaf hp indent rfl rfl (h _ rfl)
  | .bytes b, _, indent, h, hp => node_leaf hp indent rfl rfl (h _ rfl)
  | .moment m, _, indent, h, hp => node_leaf hp indent rfl rfl (h _ rfl)
  | .tuple _, _, _, h, _ => h.elim
  | .set _, _, _, h, _ => h.elim
  | .list [], place, _, _, hp => by
    cases place with
    | start => exact absurd rfl hp
    | _ => rfl
  | .map [], place, _, _, hp => by
    cases place with
    | start => exact absurd rfl hp
    | _ => rfl
  | .list (item :: rest), place, indent, h, _ =>
    lines_eq (item :: rest) (place.lead indent) indent h
  | .map (entry :: rest), place, indent, h, _ =>
    entryLines_eq (entry :: rest) (place.lead indent) indent h

theorem lines_eq : ∀ (items : List (Tree Empty)) (lead : Text) (indent : Nat), LinedItems items →
    lines lead indent items = writeItems lead indent (ofItems items)
  | [], _, _, _ => rfl
  | item :: rest, lead, indent, h => by
    rw [lines, ofItems, writeItems, node_eq item (indent + step) h.1 (by decide),
      lines_eq rest (Text.spaces indent) indent h.2]

theorem entryLines_eq : ∀ (entries : List (Tree Empty × Tree Empty)) (lead : Text) (indent : Nat),
    LinedEntries entries →
      entryLines lead indent entries = writeEntries lead indent (ofEntries entries)
  | [], _, _, _ => rfl
  | (key, value) :: rest, lead, indent, ⟨⟨l, text, hl, htext⟩, hv, hr⟩ => by
    rw [entryLines, ofEntries, writeEntries, key?_of_leaf? hl, htext, hl]
    dsimp only
    rw [node_eq value (indent + step) hv (by decide),
      entryLines_eq rest (Text.spaces indent) indent hr, (Word.key?_eq htext).1]
    simp

end

/-! ## Whole texts -/

theorem keepsBreaks_leaf {l : Leaf} (h : l.OnLine) : l.keepsBreaks = false := by
  simp [Leaf.keepsBreaks, h.literal, h.folded]

mutual

theorem not_keepsBreaks : ∀ tree : Tree Empty, Lined tree → keepsBreaks tree = false
  | .null, h => keepsBreaks_leaf (h _ rfl)
  | .bool _, h => keepsBreaks_leaf (h _ rfl)
  | .int _, h => keepsBreaks_leaf (h _ rfl)
  | .float _, h => keepsBreaks_leaf (h _ rfl)
  | .text .., h => keepsBreaks_leaf (h _ rfl)
  | .bytes _, h => keepsBreaks_leaf (h _ rfl)
  | .moment _, h => keepsBreaks_leaf (h _ rfl)
  | .tuple _, h => h.elim
  | .set _, h => h.elim
  | .list items, h => not_lastKeepsBreaks items h
  | .map entries, h => not_lastValueKeepsBreaks entries h

theorem not_lastKeepsBreaks : ∀ items : List (Tree Empty), LinedItems items →
    lastKeepsBreaks items = false
  | [], _ => rfl
  | [item], h => not_keepsBreaks item h.1
  | _ :: item :: rest, h => not_lastKeepsBreaks (item :: rest) h.2

theorem not_lastValueKeepsBreaks : ∀ entries : List (Tree Empty × Tree Empty),
    LinedEntries entries → lastValueKeepsBreaks entries = false
  | [], _ => rfl
  | [(_, value)], h => not_keepsBreaks value h.2.1
  | _ :: entry :: rest, h => not_lastValueKeepsBreaks (entry :: rest) h.2.2

end

theorem render_list {items : List (Tree Empty)} (hne : items ≠ []) (h : LinedItems items) :
    render (.list items) = (list (ofItems items)).write .start 0 := by
  obtain ⟨item, rest, rfl⟩ := List.exists_cons_of_ne_nil hne
  have hend : needsEnd (.list (item :: rest)) = false := by
    rw [needsEnd, not_keepsBreaks (.list (item :: rest)) h]
    rfl
  rw [render, hend, if_neg (by decide), List.append_nil]
  exact lines_eq (item :: rest) [] 0 h

theorem render_map {entries : List (Tree Empty × Tree Empty)} (hne : entries ≠ [])
    (h : LinedEntries entries) :
    render (.map entries) = (map (ofEntries entries)).write .start 0 := by
  obtain ⟨entry, rest, rfl⟩ := List.exists_cons_of_ne_nil hne
  have hend : needsEnd (.map (entry :: rest)) = false := by
    rw [needsEnd, not_keepsBreaks (.map (entry :: rest)) h]
    rfl
  rw [render, hend, if_neg (by decide), List.append_nil]
  exact entryLines_eq (entry :: rest) [] 0 h

end Outline

end ModernControls.Yaml
