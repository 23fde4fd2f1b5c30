import ModernControls.Proofs.Control.Lasting
import ModernControls.Proofs.Control.Outlines

/-!
# Formulas in written documents

A formula is written without quotation marks, on its line or as a block, just if its key is found
again on its line and it does not begin with the mark. An item of a list has no key, and a key that
is quoted, holds a colon or stands behind several dashes is not found: there a formula keeps its
quotation marks and the mark. Nothing else is written with the mark but texts that begin with it.

Results:
- `formulaEnd_eq_iff`: which formulas are written by themselves;
- `Property.writes_of_weaken`, `Control.writes_of_weaken`: what values and further parts are written
  as;
- `Document.writes_of_parse`: what a document is written as, if its keys and scalars take one line
  each.
-/
namespace ModernControls

open Yaml Layout Formula

namespace Yaml

namespace LineEnd

/-- Whether a line end is a text between double quotation marks that begins with the mark. -/
def IsMarked : LineEnd → Prop
  | word (.double ps) => (Word.double ps).value.head? = some formulaMark
  | _ => False

/-- What a formula is written as behind a head. Where its key is found again it stands by itself, but
if it begins with the mark it is taken for a text. -/
def formulaEnd (h : Head) (e : Text) : LineEnd :=
  match h.bareKey? with
  | some _ => if e.head? = some formulaMark then word (.ofJson e) else ofFormula e
  | none => word (.ofLayout (formulaMark :: e))

theorem ofFormula_ne_word (e : Text) (w : Word) : ofFormula e ≠ word w := by
  intro h
  rw [ofFormula] at h
  split at h
  · dsimp only at h
    split at h <;> cases h
  · cases h

/-- A formula is written by itself just if its key is found again and it does not begin with the
mark. -/
theorem formulaEnd_eq_iff (h : Head) (e : Text) :
    formulaEnd h e = ofFormula e ↔ h.bareKey?.isSome = true ∧ e.head? ≠ some formulaMark := by
  rw [formulaEnd]
  cases h.bareKey? with
  | none => simp [(ofFormula_ne_word e _).symm]
  | some k =>
    dsimp only
    split
    · next hm => simp [hm, (ofFormula_ne_word e _).symm]
    · next hm => simp [hm]

variable {h : Head}

/-- What is written between double quotation marks with the mark before it is restored to the
formula. -/
theorem restored_formula (h : Head) (e : Text) :
    restored h (word (.ofLayout (formulaMark :: e))) = formulaEnd h e := by
  rw [formulaEnd]
  cases hk : h.bareKey? with
  | none => rw [restored_of_none hk]
  | some k =>
    rw [Word.ofLayout, restored_of_some hk, ← Word.ofLayout, restoredWord, Word.value_ofLayout]
    simp

theorem not_isMarked_restored {w : Word} (hw : w.value.head? ≠ some formulaMark) (h : Head) :
    ¬ (restored h (word w)).IsMarked := by
  cases w with
  | plain t => exact id
  | single t => exact id
  | double ps =>
    cases hk : h.bareKey? with
    | none =>
      rw [restored_of_none hk]
      exact hw
    | some k =>
      rw [restored_of_some hk, restoredWord.eq_def]
      split
      · next c rest hv =>
        rw [hv] at hw
        rw [if_neg fun hc => hw (by rw [hc]; rfl)]
        split
        · exact id
        · intro hm
          exact hw (hv ▸ hm)
      · intro hm
        exact hw hm

/-- A leaf whose text does not begin with the mark is not written with it. -/
theorem not_isMarked_ofLeaf {l : Leaf} (hl : l.text.head? ≠ some formulaMark) (h : Head) :
    ¬ (restored h (.ofLeaf l)).IsMarked := by
  rw [ofLeaf]
  split
  · exact id
  · exact not_isMarked_restored (by rwa [Word.value_ofLeaf]) h

/-- A leaf that is written plain is not written with the mark. -/
theorem not_isMarked_of_plain {l : Leaf} (hl : l.style false = .plain) (h : Head) :
    ¬ (restored h (.ofLeaf l)).IsMarked := by
  rw [ofLeaf]
  split
  · exact id
  · rw [Word.ofLeaf, hl]
    exact id

theorem not_isMarked_of_onLine {l : Leaf} (hl : l.OnLine) (ht : l.tag ≠ .str) (h : Head) :
    ¬ (restored h (.ofLeaf l)).IsMarked :=
  not_isMarked_of_plain (hl.tag.resolve_right ht) h

end LineEnd

namespace Outline

/-! ## The rows of a layout -/

theorem laid_ofLeaf {l : Leaf} (hl : l.OnLine) : (LineEnd.ofLeaf l).Laid := by
  rw [LineEnd.ofLeaf]
  split
  · trivial
  · next hne =>
    exact Word.sound_ofLeaf (fun hs he => hne ⟨hs, he⟩) hl.unbroken

mutual

/-- The rows of a tree whose keys and scalars take one line each are laid out on one line each. -/
theorem laid_rows : ∀ (T : Tree Empty) {h : Head}, Lined T → h.Sound →
    ∀ r ∈ (ofTree T).rows h, r.head.Sound ∧ r.last.Laid
  | .list [], h, _, hs, r, hr => by
    obtain rfl := List.mem_singleton.1 hr
    exact ⟨hs, trivial⟩
  | .list (item :: rest), h, hl, hs, r, hr => by
    rcases List.mem_append.1 hr with hr | hr
    · obtain ⟨rfl, hlast⟩ := head_of_opening hr
      exact ⟨hs, hlast ▸ trivial⟩
    · exact laid_itemRows (item :: rest) hl r hr
  | .map [], h, _, hs, r, hr => by
    obtain rfl := List.mem_singleton.1 hr
    exact ⟨hs, trivial⟩
  | .map (entry :: rest), h, hl, hs, r, hr => by
    rcases List.mem_append.1 hr with hr | hr
    · obtain ⟨rfl, hlast⟩ := head_of_opening hr
      exact ⟨hs, hlast ▸ trivial⟩
    · exact laid_entryRows (entry :: rest) hl r hr
  | .null, h, hl, hs, r, hr => by
    obtain rfl := List.mem_singleton.1 hr
    exact ⟨hs, laid_ofLeaf (hl _ rfl)⟩
  | .bool _, h, hl, hs, r, hr => by
    obtain rfl := List.mem_singleton.1 hr
    exact ⟨hs, laid_ofLeaf (hl _ rfl)⟩
  | .int _, h, hl, hs, r, hr => by
    obtain rfl := List.mem_singleton.1 hr
    exact ⟨hs, laid_ofLeaf (hl _ rfl)⟩
  | .float _, h, hl, hs, r, hr => by
    obtain rfl := List.mem_singleton.1 hr
    exact ⟨hs, laid_ofLeaf (hl _ rfl)⟩
  | .text .., h, hl, hs, r, hr => by
    obtain rfl := List.mem_singleton.1 hr
    exact ⟨hs, laid_ofLeaf (hl _ rfl)⟩
  | .bytes _, h, hl, hs, r, hr => by
    obtain rfl := List.mem_singleton.1 hr
    exact ⟨hs, laid_ofLeaf (hl _ rfl)⟩
  | .moment _, h, hl, hs, r, hr => by
    obtain rfl := List.mem_singleton.1 hr
    exact ⟨hs, laid_ofLeaf (hl _ rfl)⟩
  | .tuple _, _, hl, _, _, _ => hl.elim
  | .set _, _, hl, _, _, _ => hl.elim
  | .foreign value, _, _, _, _, _ => value.elim

theorem laid_itemRows : ∀ (items : List (Tree Empty)) {margin dashes : Nat}, LinedItems items →
    ∀ r ∈ itemRows margin dashes (ofItems items), r.head.Sound ∧ r.last.Laid
  | [], _, _, _, _, hr => nomatch hr
  | item :: rest, margin, dashes, hl, r, hr => by
    have hs : Head.Sound ⟨margin, dashes, none⟩ := fun w hw => nomatch hw
    rcases List.mem_append.1 hr with hr | hr
    · exact laid_rows item hl.1 hs r hr
    · exact laid_itemRows rest hl.2 r hr

theorem laid_entryRows : ∀ (entries : List (Tree Empty × Tree Empty)) {margin dashes : Nat},
    LinedEntries entries →
      ∀ r ∈ entryRows margin dashes (ofEntries entries), r.head.Sound ∧ r.last.Laid
  | [], _, _, _, _, hr => nomatch hr
  | (key, value) :: rest, _, _, hl, r, hr => by
    obtain ⟨⟨l, text, hkey, htext⟩, hvalue, hrest⟩ := hl
    rcases List.mem_append.1 hr with hr | hr
    · refine laid_rows value hvalue (fun w hw => ?_) r hr
      rw [← Option.some.inj hw, hkey]
      exact (Word.key?_eq htext).2
    · exact laid_entryRows rest hrest r hr

end

theorem laid_textRows {T : Tree Empty} (hr : IsRoot T) (hl : Lined T) :
    ∀ r ∈ (ofTree T).textRows, r.head.Sound ∧ r.last.Laid := by
  cases T with
  | list items =>
    obtain ⟨item, rest, rfl⟩ := List.exists_cons_of_ne_nil hr.1
    exact laid_itemRows (item :: rest) hl
  | map entries =>
    obtain ⟨entry, rest, rfl⟩ := List.exists_cons_of_ne_nil hr
    exact laid_entryRows (entry :: rest) hl
  | _ => exact hr.elim

theorem render_of_lined {T : Tree Empty} (hr : IsRoot T) (hl : Lined T) :
    Layout.render T = (ofTree T).write .start 0 := by
  cases T with
  | list items =>
    obtain ⟨item, rest, rfl⟩ := List.exists_cons_of_ne_nil hr.1
    exact render_list hr.1 hl
  | map entries =>
    obtain ⟨entry, rest, rfl⟩ := List.exists_cons_of_ne_nil hr
    exact render_map hr hl
  | _ => exact hr.elim

/-- A tree whose keys and scalars take one line each has a text: that of its restored outline. -/
theorem textOf_of_lined {T : Tree Empty} (hr : IsRoot T) (hl : Lined T) (hs : T.isShort = true) :
    Document.textOf T.weaken = .ok (restoredText T) := by
  rw [Document.textOf, Yaml.Tree.toText_weaken hs, render_of_lined hr hl]
  dsimp only
  rw [unescape_write (ofTree_ne_leaf hr) (filled_ofTree T) (laid_textRows hr hl)]
  rfl

/-- A scalar that is no text is not written with the mark. -/
theorem not_isMarked_scalar {S T : Tree Empty} {l : Leaf} (hS : leaf? S = some l) (ht : l.tag ≠ .str)
    (hT : (S.weaken : PlainValue) = T.weaken) (hl : Lined T) (h : Head) :
    ∃ last, (ofTree T).relabel LineEnd.restored h = leaf last ∧ ¬ last.IsMarked := by
  cases S with
  | text t form => cases hS; exact absurd rfl ht
  | list items => cases hS
  | map entries => cases hS
  | tuple items => cases hS
  | set items => cases hS
  | foreign value => exact value.elim
  | _ =>
    cases T with
    | foreign value => exact value.elim
    | _ => cases hT <;> exact ⟨_, rfl, LineEnd.not_isMarked_of_onLine (hl _ rfl) nofun h⟩

end Outline

end Yaml

/-! ## Values -/

namespace Property

mutual

/-- What a value behind a head is written as: a formula by itself where its key is found again, an
object as its entries, and no other value with the mark but a text that begins with it. -/
def Writes (h : Head) : Property → Outline → Prop
  | .formula e, o => o = .leaf (.formulaEnd h e)
  | .string t _, o => ∃ last, o = .leaf last ∧ (last.IsMarked → t.head? = some formulaMark)
  | .object entries, o => entries = [] ∧ o = .leaf .braces
    ∨ ∃ os, o = .map os ∧ WritesEntries h.inner.1 h.inner.2 entries os
  | _, o => ∃ last, o = .leaf last ∧ ¬ last.IsMarked

/-- What entries are written as, the first after a margin and dashes. -/
def WritesEntries (margin dashes : Nat) : List (Text × Property) → List (Word × Outline) → Prop
  | [], os => os = []
  | (key, value) :: rest, os =>
    ∃ w o more, os = (w, o) :: more ∧ w.value = key ∧ Writes ⟨margin, dashes, some w⟩ value o
      ∧ WritesEntries (margin + Layout.step * dashes) 0 rest more

end

/-- A text is written with the mark only if it begins with it. -/
theorem head_of_isMarked {t : Text} {form : TextForm} {T : Yaml.Tree Empty} {h : Head}
    (hT : treeOfText t form = T.weaken) :
    ∃ last, (Outline.ofTree T).relabel LineEnd.restored h = .leaf last
      ∧ (last.IsMarked → t.head? = some formulaMark) := by
  by_cases hm : t.head? = some formulaMark
  · rw [treeOfText, if_pos hm] at hT
    cases T with
    | text u form => exact ⟨_, rfl, fun _ => hm⟩
    | foreign value => exact value.elim
    | _ => cases hT
  · obtain ⟨form', hform⟩ : ∃ form', treeOfText t form = .text t form' := by
      rw [treeOfText, if_neg hm]
      split
      · exact ⟨_, rfl⟩
      · split <;> exact ⟨_, rfl⟩
    rw [hform] at hT
    cases T with
    | text u form =>
      obtain ⟨rfl, -⟩ := Yaml.Tree.text.inj hT
      exact ⟨_, rfl, fun hl => absurd hl (LineEnd.not_isMarked_ofLeaf hm h)⟩
    | foreign value => exact value.elim
    | _ => cases hT

/-- A formula is written between double quotation marks with the mark, and restored. -/
theorem relabel_formula {e : Text} {T : Yaml.Tree Empty} {h : Head}
    (hT : (Property.formula e : Property).toTree = T.weaken) :
    (Outline.ofTree T).relabel LineEnd.restored h = .leaf (.formulaEnd h e) := by
  cases T with
  | text u form =>
    obtain ⟨rfl, rfl⟩ := Yaml.Tree.text.inj hT
    have hstyle : Leaf.style false ⟨.str, formulaMark :: e, some .double⟩ = .double := by
      rw [style_of_forced (.inr rfl), if_neg (by simp)]
    have hleaf : LineEnd.ofLeaf ⟨.str, formulaMark :: e, some .double⟩
        = .word (.ofLayout (formulaMark :: e)) := by
      rw [LineEnd.ofLeaf, hstyle, if_neg (by simp), Word.ofLeaf, hstyle]
    show Outline.leaf (LineEnd.restored h (.ofLeaf ⟨.str, formulaMark :: e, some .double⟩)) = _
    rw [hleaf, LineEnd.restored_formula]
  | foreign value => exact value.elim
  | _ => cases hT

mutual

/-- A value whose tree takes one line for each key and scalar is written as it says. -/
theorem writes_of_weaken : ∀ (p : Property) {T : Yaml.Tree Empty} {h : Head}, p.toTree = T.weaken →
    Outline.Lined T → p.Writes h ((Outline.ofTree T).relabel LineEnd.restored h)
  | .empty, _, h, hT, hl => Outline.not_isMarked_scalar (S := .null) rfl nofun hT hl h
  | .bool b, _, h, hT, hl => Outline.not_isMarked_scalar (S := .bool b) rfl nofun hT hl h
  | .int n, _, h, hT, hl => Outline.not_isMarked_scalar (S := .int n) rfl nofun hT hl h
  | .float x, _, h, hT, hl => Outline.not_isMarked_scalar (S := .float x) rfl nofun hT hl h
  | .formula e, T, h, hT, hl => relabel_formula hT
  | .string t form, T, h, hT, hl => head_of_isMarked hT
  | .object entries, T, h, hT, hl => by
    cases T with
    | map Ts =>
      have hentries : WritesEntries h.inner.1 h.inner.2 entries _ :=
        writesEntries_of_weaken entries (Yaml.Tree.map.inj hT) hl
      cases Ts with
      | nil =>
        cases entries with
        | nil => exact .inl ⟨rfl, rfl⟩
        | cons e rest => cases hT
      | cons e Ts => exact .inr ⟨_, rfl, hentries⟩
    | foreign value => exact value.elim
    | _ => cases hT

theorem writesEntries_of_weaken : ∀ (entries : List (Text × Property))
    {Ts : List (Yaml.Tree Empty × Yaml.Tree Empty)} {margin dashes : Nat},
    toTreeEntries entries = Yaml.Tree.substituteEntries nofun Ts → Outline.LinedEntries Ts →
      WritesEntries margin dashes entries
        (Outline.relabelEntries LineEnd.restored margin dashes (Outline.ofEntries Ts))
  | [], Ts, margin, dashes, hT, hl => by
    cases Ts with
    | nil => rfl
    | cons e Ts => cases hT
  | (key, value) :: rest, Ts, margin, dashes, hT, hl => by
    cases Ts with
    | nil => cases hT
    | cons e Ts =>
      obtain ⟨K, V⟩ := e
      obtain ⟨he, hrest⟩ := List.cons.inj hT
      obtain ⟨hK, hV⟩ := Prod.mk.inj he
      cases K with
      | text k form =>
        obtain ⟨rfl, rfl⟩ := Yaml.Tree.text.inj hK
        exact ⟨_, _, _, rfl, Word.value_ofLeaf _ _, writes_of_weaken value hV hl.2.1,
          writesEntries_of_weaken rest hrest hl.2.2⟩
      | foreign value => exact value.elim
      | _ => cases hK

end

end Property

/-! ## Further parts and controls -/

namespace Control

mutual

/-- What a further part behind a head is written as. -/
def WritesPart (h : Head) : PlainValue → Outline → Prop
  | .foreign (.property value), o => value.Writes h o
  | .text t _, o => ∃ last, o = .leaf last ∧ (last.IsMarked → t.head? = some formulaMark)
  | .list items, o => items = [] ∧ o = .leaf .brackets
    ∨ ∃ os, o = .list os ∧ WritesItems h.inner.1 h.inner.2 items os
  | .map entries, o => entries = [] ∧ o = .leaf .braces
    ∨ ∃ os, o = .map os ∧ WritesEntries h.inner.1 h.inner.2 entries os
  | _, o => ∃ last, o = .leaf last ∧ ¬ last.IsMarked

/-- What items are written as, the first after a margin and dashes. -/
def WritesItems (margin dashes : Nat) : List PlainValue → List Outline → Prop
  | [], os => os = []
  | item :: rest, os =>
    ∃ o more, os = o :: more ∧ WritesPart ⟨margin, dashes, none⟩ item o
      ∧ WritesItems (margin + Layout.step * dashes) 0 rest more

/-- What entries are written as, the first after a margin and dashes. -/
def WritesEntries (margin dashes : Nat) :
    List (PlainValue × PlainValue) → List (Word × Outline) → Prop
  | [], os => os = []
  | (key, value) :: rest, os =>
    ∃ w o more, os = (w, o) :: more ∧ (∀ k form, key = .text k form → w.value = k)
      ∧ WritesPart ⟨margin, dashes, some w⟩ value o
      ∧ WritesEntries (margin + Layout.step * dashes) 0 rest more

end

mutual

/-- A further part whose tree takes one line for each key and scalar is written as it says. -/
theorem writes_of_weaken : ∀ (value : PlainValue) {T : Yaml.Tree Empty} {h : Head},
    treeOfExtra value = T.weaken → Outline.Lined T →
      WritesPart h value ((Outline.ofTree T).relabel LineEnd.restored h)
  | .null, _, h, hT, hl => Outline.not_isMarked_scalar (S := .null) rfl nofun hT hl h
  | .bool b, _, h, hT, hl => Outline.not_isMarked_scalar (S := .bool b) rfl nofun hT hl h
  | .int n, _, h, hT, hl => Outline.not_isMarked_scalar (S := .int n) rfl nofun hT hl h
  | .float x, _, h, hT, hl => Outline.not_isMarked_scalar (S := .float x) rfl nofun hT hl h
  | .bytes b, _, h, hT, hl => Outline.not_isMarked_scalar (S := .bytes b) rfl nofun hT hl h
  | .moment m, _, h, hT, hl => Outline.not_isMarked_scalar (S := .moment m) rfl nofun hT hl h
  | .tuple items, T, h, hT, hl => by
    cases T with
    | tuple items => exact hl.elim
    | foreign value => exact value.elim
    | _ => cases hT
  | .set items, T, h, hT, hl => by
    cases T with
    | set items => exact hl.elim
    | foreign value => exact value.elim
    | _ => cases hT
  | .text t form, T, h, hT, hl => Property.head_of_isMarked hT
  | .foreign (.property value), T, h, hT, hl => Property.writes_of_weaken value hT hl
  | .foreign (.unknown typeName shown), T, h, hT, hl => by
    cases T with
    | foreign value => exact value.elim
    | _ => cases hT
  | .list items, T, h, hT, hl => by
    cases T with
    | list Ts =>
      have hitems : WritesItems h.inner.1 h.inner.2 items _ :=
        writesItems_of_weaken items (Yaml.Tree.list.inj hT) hl
      cases Ts with
      | nil =>
        cases items with
        | nil => exact .inl ⟨rfl, rfl⟩
        | cons item rest => cases hT
      | cons item Ts => exact .inr ⟨_, rfl, hitems⟩
    | foreign value => exact value.elim
    | _ => cases hT
  | .map entries, T, h, hT, hl => by
    cases T with
    | map Ts =>
      have hentries : WritesEntries h.inner.1 h.inner.2 entries _ :=
        writesEntries_of_weaken entries (Yaml.Tree.map.inj hT) hl
      cases Ts with
      | nil =>
        cases entries with
        | nil => exact .inl ⟨rfl, rfl⟩
        | cons e rest => cases hT
      | cons e Ts => exact .inr ⟨_, rfl, hentries⟩
    | foreign value => exact value.elim
    | _ => cases hT

theorem writesItems_of_weaken : ∀ (items : List PlainValue) {Ts : List (Yaml.Tree Empty)}
    {margin dashes : Nat}, treesOfItems items = Yaml.Tree.substituteItems nofun Ts →
      Outline.LinedItems Ts → WritesItems margin dashes items
        (Outline.relabelItems LineEnd.restored margin dashes (Outline.ofItems Ts))
  | [], Ts, margin, dashes, hT, hl => by
    cases Ts with
    | nil => rfl
    | cons item Ts => cases hT
  | item :: rest, Ts, margin, dashes, hT, hl => by
    cases Ts with
    | nil => cases hT
    | cons V Ts =>
      obtain ⟨hV, hrest⟩ := List.cons.inj hT
      exact ⟨_, _, rfl, writes_of_weaken item hV hl.1, writesItems_of_weaken rest hrest hl.2⟩

theorem writesEntries_of_weaken : ∀ (entries : List (PlainValue × PlainValue))
    {Ts : List (Yaml.Tree Empty × Yaml.Tree Empty)} {margin dashes : Nat},
    treesOfEntries entries = Yaml.Tree.substituteEntries nofun Ts → Outline.LinedEntries Ts →
      WritesEntries margin dashes entries
        (Outline.relabelEntries LineEnd.restored margin dashes (Outline.ofEntries Ts))
  | [], Ts, margin, dashes, hT, hl => by
    cases Ts with
    | nil => rfl
    | cons e Ts => cases hT
  | (key, value) :: rest, Ts, margin, dashes, hT, hl => by
    cases Ts with
    | nil => cases hT
    | cons e Ts =>
      obtain ⟨K, V⟩ := e
      obtain ⟨he, hrest⟩ := List.cons.inj hT
      obtain ⟨hK, hV⟩ := Prod.mk.inj he
      refine ⟨_, _, _, rfl, fun k form hkey => ?_, writes_of_weaken value hV hl.2.1,
        writesEntries_of_weaken rest hrest hl.2.2⟩
      subst hkey
      cases K with
      | text k form =>
        obtain ⟨rfl, rfl⟩ := Yaml.Tree.text.inj hK
        exact Word.value_ofLeaf _ _
      | foreign value => exact value.elim
      | _ => cases hK

end

/-- What a part of a control under a key is written as: the type and no other text without the mark,
the properties as an object. -/
def WritesUnder (c : Control) (h : Head) (key : Text) (o : Outline) : Prop :=
  if key = typeKey then ∃ last, o = .leaf last ∧ ¬ last.IsMarked
  else if key = propertiesKey then (Property.object c.properties).Writes h o
  else WritesPart h ((c.extras.get? key).getD .null) o

/-- What the parts of a control are written as, the first after a margin. -/
def WritesParts (c : Control) (margin : Nat) : List Text → List (Word × Outline) → Prop
  | [], os => os = []
  | key :: rest, os =>
    ∃ w o more, os = (w, o) :: more ∧ w.value = key ∧ c.WritesUnder ⟨margin, 0, some w⟩ key o
      ∧ WritesParts c margin rest more

/-- What a control below its name is written as: its parts, each under its key. -/
def Writes (h : Head) (c : Control) (o : Outline) : Prop :=
  ∃ keys os, (∀ k, k ∈ keys ↔ k ∈ c.nodeKeys) ∧ o = .map os
    ∧ c.WritesParts (h.column + Layout.step) keys os

variable {c : Control}

theorem writesUnder_of_weaken (htag : c.typeTag.head? ≠ some formulaMark) {key : Text}
    {T : Yaml.Tree Empty} {h : Head} (hT : c.part key = T.weaken) (hl : Outline.Lined T) :
    c.WritesUnder h key ((Outline.ofTree T).relabel LineEnd.restored h) := by
  rw [part] at hT
  rw [WritesUnder]
  split
  · next hk =>
    rw [if_pos hk, treeOfType] at hT
    cases T with
    | text t form =>
      obtain ⟨rfl, -⟩ := Yaml.Tree.text.inj hT
      exact ⟨_, rfl, LineEnd.not_isMarked_ofLeaf htag h⟩
    | foreign value => exact value.elim
    | _ => cases hT
  · next hk =>
    rw [if_neg hk] at hT
    split
    · next hp =>
      rw [if_pos hp] at hT
      exact Property.writes_of_weaken (.object c.properties) hT hl
    · next hp =>
      rw [if_neg hp] at hT
      exact writes_of_weaken _ hT hl

theorem writesParts_of_weaken (htag : c.typeTag.head? ≠ some formulaMark) (keys : List Text)
    {Ts : List (Yaml.Tree Empty × Yaml.Tree Empty)} {margin : Nat}
    (hT : (keys.map fun k => ((.text k .plain : PlainValue), c.part k))
      = Yaml.Tree.substituteEntries nofun Ts) (hl : Outline.LinedEntries Ts) :
    c.WritesParts margin keys
      (Outline.relabelEntries LineEnd.restored margin 0 (Outline.ofEntries Ts)) := by
  induction keys generalizing Ts with
  | nil =>
    cases Ts with
    | nil => rfl
    | cons e Ts => cases hT
  | cons key rest ih =>
    cases Ts with
    | nil => cases hT
    | cons e Ts =>
      obtain ⟨K, V⟩ := e
      obtain ⟨he, hrest⟩ := List.cons.inj hT
      obtain ⟨hK, hV⟩ := Prod.mk.inj he
      cases K with
      | text k form =>
        obtain ⟨rfl, rfl⟩ := Yaml.Tree.text.inj hK
        exact ⟨_, _, _, rfl, Word.value_ofLeaf _ _, writesUnder_of_weaken htag hV hl.2.1,
          ih hrest hl.2.2⟩
      | foreign value => exact value.elim
      | _ => cases hK

/-- A control whose tree takes one line for each key and scalar is written as it says. -/
theorem writes_toTree (htag : c.typeTag.head? ≠ some formulaMark) {T : Yaml.Tree Empty} {w : Word}
    {margin dashes : Nat} (hT : c.toTree = T.weaken) (hl : Outline.Lined T) :
    c.Writes ⟨margin, dashes, some w⟩
      ((Outline.ofTree T).relabel LineEnd.restored ⟨margin, dashes, some w⟩) := by
  obtain ⟨keys, hparts, hkeys⟩ := Table.exists_ofEntries_map c.part c.nodeKeys
  rw [toTree, hparts, List.map_map] at hT
  cases T with
  | map Ts =>
    have hTs := Yaml.Tree.map.inj hT
    have hne : keys ≠ [] :=
      List.ne_nil_of_mem ((hkeys typeKey).2 ((mem_nodeKeys c typeKey).2 List.mem_cons_self))
    cases Ts with
    | nil =>
      cases keys with
      | nil => exact absurd rfl hne
      | cons key rest => cases hTs
    | cons e Ts => exact ⟨keys, _, hkeys, rfl, writesParts_of_weaken htag keys hTs hl⟩
  | foreign value => exact value.elim
  | _ => cases hT

end Control

/-! ## Documents -/

namespace Document

/-- Whether the keys and scalars of a document take one line each when it is written. -/
def IsLined (d : Document) : Prop :=
  ∃ T : Yaml.Tree Empty, d.toTree = T.weaken ∧ Outline.Lined T ∧ T.isShort = true

/-- What a document is written as: its controls in order, each under its name. -/
def Writes (d : Document) (o : Outline) : Prop :=
  List.Forall₂ (fun c e => e.1.value = c.1
    ∧ c.2.Writes ⟨0, if d.asSequence then 1 else 0, some e.1⟩ e.2) d.controls o.declared

variable {d : Document}

theorem writes_of_entry {c : Text × Control} (htag : c.2.typeTag.head? ≠ some formulaMark)
    {e : Yaml.Tree Empty × Yaml.Tree Empty} {es : List (Yaml.Tree Empty × Yaml.Tree Empty)}
    (hT : ((.text c.1 .plain : PlainValue), c.2.toTree) = (e.1.weaken, e.2.weaken))
    (hl : Outline.LinedEntries (e :: es)) (dashes : Nat) :
    ∃ w o, Outline.relabelEntries LineEnd.restored 0 dashes (Outline.ofEntries (e :: es))
        = (w, o) :: Outline.relabelEntries LineEnd.restored (Layout.step * dashes) 0
          (Outline.ofEntries es)
      ∧ w.value = c.1 ∧ c.2.Writes ⟨0, dashes, some w⟩ o := by
  obtain ⟨K, V⟩ := e
  obtain ⟨hK, hV⟩ := Prod.mk.inj hT
  cases K with
  | text k form =>
    obtain ⟨rfl, rfl⟩ := Yaml.Tree.text.inj hK
    refine ⟨.ofLeaf true ⟨.str, c.1, none⟩, _, ?_, Word.value_ofLeaf _ _,
      Control.writes_toTree htag hV hl.2.1⟩
    rw [Outline.ofEntries, Outline.relabelEntries, Nat.zero_add]
    rfl
  | foreign value => exact value.elim
  | _ => cases hK

theorem writes_of_entries (controls : Table Control)
    (htags : ∀ c ∈ controls, c.2.typeTag.head? ≠ some formulaMark)
    {Ts : List (Yaml.Tree Empty × Yaml.Tree Empty)}
    (hT : (controls.map fun c => ((.text c.1 .plain : PlainValue), c.2.toTree))
      = Yaml.Tree.substituteEntries nofun Ts) (hl : Outline.LinedEntries Ts) :
    List.Forall₂ (fun c e => e.1.value = c.1 ∧ c.2.Writes ⟨0, 0, some e.1⟩ e.2) controls
      (Outline.relabelEntries LineEnd.restored 0 0 (Outline.ofEntries Ts)) := by
  induction controls generalizing Ts with
  | nil =>
    cases Ts with
    | nil => exact .nil
    | cons e Ts => cases hT
  | cons c rest ih =>
    cases Ts with
    | nil => cases hT
    | cons e Ts =>
      obtain ⟨he, hrest⟩ := List.cons.inj hT
      obtain ⟨w, o, hentry, hw⟩ := writes_of_entry (htags c List.mem_cons_self) he hl 0
      rw [hentry]
      exact .cons hw (ih (fun c hc => htags c (List.mem_cons_of_mem _ hc)) hrest hl.2.2)

theorem writes_of_items (controls : Table Control)
    (htags : ∀ c ∈ controls, c.2.typeTag.head? ≠ some formulaMark) {Ts : List (Yaml.Tree Empty)}
    (hT : (controls.map fun c => (.map [((.text c.1 .plain : PlainValue), c.2.toTree)] : PlainValue))
      = Yaml.Tree.substituteItems nofun Ts) (hl : Outline.LinedItems Ts) :
    List.Forall₂ (fun c e => e.1.value = c.1 ∧ c.2.Writes ⟨0, 1, some e.1⟩ e.2) controls
      (Outline.declared (.list (Outline.relabelItems LineEnd.restored 0 0 (Outline.ofItems Ts)))) := by
  induction controls generalizing Ts with
  | nil =>
    cases Ts with
    | nil => exact .nil
    | cons T Ts => cases hT
  | cons c rest ih =>
    cases Ts with
    | nil => cases hT
    | cons T Ts =>
      obtain ⟨hT, hrest⟩ := List.cons.inj hT
      have hmore := ih (fun c hc => htags c (List.mem_cons_of_mem _ hc)) hrest hl.2
      cases T with
      | map es =>
        have hes := Yaml.Tree.map.inj hT
        cases es with
        | nil => cases hes
        | cons e es =>
          obtain ⟨he, hnone⟩ := List.cons.inj hes
          cases es with
          | nil =>
            obtain ⟨w, o, hentry, hw⟩ := writes_of_entry (htags c List.mem_cons_self) he hl.1 1
            have hitem : (Outline.ofTree (.map [e])).relabel LineEnd.restored ⟨0, 0, none⟩
                = .map [(w, o)] := congrArg Outline.map hentry
            rw [Outline.ofItems, Outline.relabelItems, hitem]
            exact .cons hw hmore
          | cons e es => cases hnone
      | foreign value => exact value.elim
      | _ => cases hT

/-- A document whose tree takes one line for each key and scalar is written as it says. -/
theorem writes_of_lined (hne : d.controls ≠ [])
    (htags : ∀ c ∈ d.controls, c.2.typeTag.head? ≠ some formulaMark) (hl : d.IsLined) :
    ∃ o, render d = .ok (o.write .start 0) ∧ d.Writes o := by
  obtain ⟨T, hT, hlined, hshort⟩ := hl
  have hr : IsRoot T := isRoot_of_weaken (α := Foreign) (hT ▸ isRoot_toTree hne)
  refine ⟨(Outline.ofTree T).textRelabel LineEnd.restored, ?_, ?_⟩
  · rw [render, hT]
    exact Outline.textOf_of_lined hr hlined hshort
  · obtain ⟨controls, asSequence⟩ := d
    cases T with
    | list Ts =>
      cases asSequence with
      | false => cases hT
      | true =>
        obtain ⟨T, Ts, rfl⟩ := List.exists_cons_of_ne_nil hr.1
        have hitems := Yaml.Tree.list.inj hT
        rw [List.map_map] at hitems
        exact writes_of_items controls htags hitems hlined
    | map Ts =>
      cases asSequence with
      | true => cases hT
      | false =>
        obtain ⟨e, Ts, rfl⟩ := List.exists_cons_of_ne_nil hr
        exact writes_of_entries controls htags (Yaml.Tree.map.inj hT) hlined
    | _ => exact hr.elim

/-- What a document that is read is written as, if its keys and scalars take one line each: every
formula by itself where its key is found again, and nothing else with the mark but texts that begin
with it. -/
theorem writes_of_parse {t : Text} (hp : parse t = .ok d) (hl : d.IsLined) :
    ∃ o, render d = .ok (o.write .start 0) ∧ d.Writes o := by
  obtain ⟨hne, -, hcontrols⟩ := controls_of_parse hp
  refine writes_of_lined hne (fun c hc hm => ?_) hl
  obtain ⟨body, -, hbody⟩ := hcontrols c hc
  obtain ⟨tag, htag⟩ := Control.exists_unwrapped_of_read hbody
  rw [htag, TypeToken.unwrapped] at hm
  exact absurd (Text.head_trim hm) (by decide)

/-- Formulas under a key, in an object, in a further part and as an item, and a text that begins with
the mark. -/
def scatteredText : Text :=
  ("- B:\n    Control: X@1\n    Properties:\n      T: =A\n      O:\n        P: \"\\x1eb\"\n"
    ++ "    Children:\n      - C: =D\n      - =E\n").toList

/-- The control with these formulas. -/
def scattered : Document :=
  .single ['B'] ⟨"X@1".toList,
    [(['T'], .formula ['A']), (['O'], .object [(['P'], .ofText [formulaMark, 'b'])])],
    [("Children".toList, .list [.map [(.text ['C'] .plain, .foreign (.property (.formula ['D'])))],
      .foreign (.property (.formula ['E']))])],
    [typeKey, propertiesKey, "Children".toList]⟩ true

theorem onLine_double (t : Text) : Leaf.OnLine ⟨.str, t, some .double⟩ := by
  have hstyle : Leaf.style false ⟨.str, t, some .double⟩ = .double := by
    rw [style_of_forced (.inr rfl), if_neg (by simp)]
  exact ⟨by simp [hstyle], by simp [hstyle], .inr rfl, by simp [hstyle]⟩

theorem scattered_isLined : scattered.IsLined := by
  have hkey : ∀ k : Text, Leaf.key? ⟨.str, k, none⟩ = some k →
      ∃ l text, leaf? (.text k .plain : Yaml.Tree Empty) = some l ∧ l.key? = some text :=
    fun k hk => ⟨_, _, rfl, hk⟩
  have htext : ∀ t : Text, Outline.Lined (.text t (.forced .double)) := fun t l hl => by
    cases hl
    exact onLine_double t
  refine ⟨.list [.map [(.text ['B'] .plain, .map [(.text typeKey .plain,
      .text "X@1".toList (.forced .double)), (.text propertiesKey .plain,
        .map [(.text ['T'] .plain, .text [formulaMark, 'A'] (.forced .double)),
          (.text ['O'] .plain, .map [(.text ['P'] .plain,
            .text [formulaMark, formulaMark, 'b'] (.forced .double))])]),
      (.text "Children".toList .plain, .list [.map [(.text ['C'] .plain,
        .text [formulaMark, 'D'] (.forced .double))],
        .text [formulaMark, 'E'] (.forced .double)])])]], by decide +kernel, ?_, by decide +kernel⟩
  exact ⟨⟨hkey _ (by decide +kernel), ⟨hkey _ (by decide +kernel), htext _,
    hkey _ (by decide +kernel), ⟨hkey _ (by decide +kernel), htext _, hkey _ (by decide +kernel),
      ⟨hkey _ (by decide +kernel), htext _, trivial⟩, trivial⟩,
    hkey _ (by decide +kernel), ⟨⟨hkey _ (by decide +kernel), htext _, trivial⟩, htext _, trivial⟩,
    trivial⟩, trivial⟩, trivial⟩

theorem writes_scattered : parse scatteredText = .ok scattered ∧ scattered.IsLined
    ∧ ∃ o, render scattered = .ok (o.write .start 0) ∧ scattered.Writes o := by
  have hp : parse scatteredText = .ok scattered := by decide +kernel
  exact ⟨hp, scattered_isLined, writes_of_parse hp scattered_isLined⟩

/-- A control with a formula as an item of a list. -/
def itemText : Text := "- B:\n    Control: X@1\n    Children:\n      - =A\n".toList

/-- Not every formula is written by itself: as an item of a list it keeps its quotation marks. -/
theorem not_bare_item : ¬ ∀ (t u e : Text) (d : Document), parse t = .ok d → render d = .ok u →
    (∃ c ∈ d.controls, ∃ part ∈ c.2.extras, part.2 = .list [.foreign (.property (.formula e))]) →
      Text.occursIn (formulaSign :: e) u = true := by
  intro h
  have hbare := h itemText "- B:\n    Control: X@1\n    Children:\n      - \"\\x1EA\"\n".toList ['A']
    (.single ['B'] ⟨"X@1".toList, [], [("Children".toList,
      .list [.foreign (.property (.formula ['A']))])], [typeKey, "Children".toList]⟩ true)
    (by decide +kernel) (by decide +kernel)
    ⟨_, List.mem_singleton.2 rfl, _, List.mem_singleton.2 rfl, rfl⟩
  exact absurd hbare (by decide +kernel)

end Document

end ModernControls
