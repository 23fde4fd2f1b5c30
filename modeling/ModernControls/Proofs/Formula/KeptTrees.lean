import ModernControls.Proofs.Decimal.Canonical
import ModernControls.Proofs.Formula.Staying

/-!
# Trees that are read back

A tree stays if its scalars do and its keys fit on their lines and differ from each other. Then its
text, with its formulas put back, is escaped to a text that is read as a tree that agrees with it.

Results:
- `exists_weaken`: such a tree holds nothing foreign;
- `row_stays`: each row of it is written, restored, escaped and read as it is meant;
- `means_of_keeps`: what is read at last agrees with the tree.
-/
namespace ModernControls

open Yaml Layout Formula

namespace Formula

variable {α : Type}

/-- Whether a text can be the key of an entry on a line. -/
def KeepsKey (k : Text) : Prop :=
  ∃ written, Leaf.key? ⟨.str, k, none⟩ = some written ∧ written.length ≤ Lexer.keyReach

mutual

/-- Whether a tree behind a key, if there is one, stays. -/
def KeepsTree (key : Option Text) : Yaml.Tree α → Prop
  | .null => True
  | .bool _ => True
  | .int n => isLongInteger n = false
  | .float x => x.Canonical
  | .text t form => KeepsLeaf key ⟨.str, t, form.style?⟩
  | .list items => KeepsItems items
  | .map entries => (entries.map (·.1.keyText)).Nodup ∧ KeepsEntries entries
  | _ => False

/-- Whether items stay. -/
def KeepsItems : List (Yaml.Tree α) → Prop
  | [] => True
  | item :: rest => KeepsTree none item ∧ KeepsItems rest

/-- Whether entries stay, with their keys on lines. -/
def KeepsEntries : List (Yaml.Tree α × Yaml.Tree α) → Prop
  | [] => True
  | (key, value) :: rest =>
    (∃ k, key = .text k .plain ∧ KeepsKey k) ∧ KeepsTree (some key.keyText) value ∧ KeepsEntries rest

end

mutual

/-- A tree that stays holds nothing foreign. -/
theorem exists_weaken : ∀ (tree : Yaml.Tree α) (key : Option Text), KeepsTree key tree →
    ∃ T : Yaml.Tree Empty, tree = T.weaken ∧ KeepsTree key T
  | .null, _, _ => ⟨.null, rfl, trivial⟩
  | .bool b, _, _ => ⟨.bool b, rfl, trivial⟩
  | .int n, _, h => ⟨.int n, rfl, h⟩
  | .float x, _, h => ⟨.float x, rfl, h⟩
  | .text t form, _, h => ⟨.text t form, rfl, h⟩
  | .list items, _, h => by
    obtain ⟨Ts, rfl, hT⟩ := exists_weakenItems items h
    exact ⟨.list Ts, rfl, hT⟩
  | .map entries, _, h => by
    obtain ⟨Ts, rfl, hT, hkeys⟩ := exists_weakenEntries entries h.2
    exact ⟨.map Ts, rfl, hkeys ▸ h.1, hT⟩
  | .bytes _, _, h => h.elim
  | .moment _, _, h => h.elim
  | .tuple _, _, h => h.elim
  | .set _, _, h => h.elim
  | .foreign _, _, h => h.elim

theorem exists_weakenItems : ∀ items : List (Yaml.Tree α), KeepsItems items →
    ∃ Ts : List (Yaml.Tree Empty), items = Yaml.Tree.substituteItems nofun Ts ∧ KeepsItems Ts
  | [], _ => ⟨[], rfl, trivial⟩
  | item :: rest, h => by
    obtain ⟨T, rfl, hT⟩ := exists_weaken item none h.1
    obtain ⟨Ts, rfl, hTs⟩ := exists_weakenItems rest h.2
    exact ⟨T :: Ts, rfl, hT, hTs⟩

theorem exists_weakenEntries : ∀ entries : List (Yaml.Tree α × Yaml.Tree α), KeepsEntries entries →
    ∃ Ts : List (Yaml.Tree Empty × Yaml.Tree Empty), entries = Yaml.Tree.substituteEntries nofun Ts
      ∧ KeepsEntries Ts ∧ entries.map (·.1.keyText) = Ts.map (·.1.keyText)
  | [], _ => ⟨[], rfl, trivial, rfl⟩
  | (key, value) :: rest, h => by
    obtain ⟨⟨k, rfl, hk⟩, hv, hrest⟩ := h
    obtain ⟨T, rfl, hT⟩ := exists_weaken value _ hv
    obtain ⟨Ts, rfl, hTs, hkeys⟩ := exists_weakenEntries rest hrest
    refine ⟨(.text k .plain, T) :: Ts, rfl, ⟨⟨k, rfl, hk⟩, hT, hTs⟩, ?_⟩
    rw [List.map_cons, List.map_cons, hkeys]
    rfl

end

mutual

theorem isShort_of_keeps : ∀ (tree : Yaml.Tree α) (key : Option Text), KeepsTree key tree →
    tree.isShort = true
  | .null, _, _ => rfl
  | .bool _, _, _ => rfl
  | .int n, _, h => by rw [Yaml.Tree.isShort, show isLongInteger n = false from h]; rfl
  | .float _, _, _ => rfl
  | .text .., _, _ => rfl
  | .list items, _, h => areShort_of_keeps items h
  | .map entries, _, h => areShortEntries_of_keeps entries h.2
  | .bytes _, _, h => h.elim
  | .moment _, _, h => h.elim
  | .tuple _, _, h => h.elim
  | .set _, _, h => h.elim
  | .foreign _, _, h => h.elim

theorem areShort_of_keeps : ∀ items : List (Yaml.Tree α), KeepsItems items →
    Yaml.Tree.areShort items = true
  | [], _ => rfl
  | item :: rest, h => by
    rw [Yaml.Tree.areShort, isShort_of_keeps item none h.1, areShort_of_keeps rest h.2]
    rfl

theorem areShortEntries_of_keeps : ∀ entries : List (Yaml.Tree α × Yaml.Tree α), KeepsEntries entries →
    Yaml.Tree.areShortEntries entries = true
  | [], _ => rfl
  | (key, value) :: rest, h => by
    obtain ⟨⟨k, rfl, -⟩, hv, hrest⟩ := h
    rw [Yaml.Tree.areShortEntries, isShort_of_keeps value _ hv, areShortEntries_of_keeps rest hrest]
    rfl

end

/-! ## Keys and scalars -/

/-- Whether a head is that of an item, or of an entry with a key. -/
structure Behind (h : Head) (key : Option Text) : Prop where
  sound : ∀ w, h.key = some w → w.Sound ∧ w.written.length ≤ Lexer.keyReach
  bare : ∀ k, h.bareKey? = some k → key = some k

theorem behind_item (margin dashes : Nat) : Behind ⟨margin, dashes, none⟩ none where
  sound := fun _ h => nomatch h
  bare := fun _ h => nomatch h

/-- The word of a key. -/
def keyWord (k : Text) : Word := .ofLeaf true ⟨.str, k, none⟩

theorem behind_entry {k : Text} (hk : KeepsKey k) (margin dashes : Nat) :
    Behind ⟨margin, dashes, some (keyWord k)⟩ (some k) where
  sound := fun w h => by
    obtain rfl : keyWord k = w := Option.some.inj h
    obtain ⟨written, hw, hlen⟩ := hk
    obtain ⟨rfl, hsound⟩ := Word.key?_eq hw
    exact ⟨hsound, hlen⟩
  bare := fun k' h => by
    have hplain : keyWord k = .plain k' := Option.some.inj (Row.text_of_bareKey? h).2
    have hvalue := Word.value_ofLeaf true ⟨.str, k, none⟩
    rw [← keyWord, hplain] at hvalue
    exact congrArg some hvalue.symm

/-- Whether a row is written, restored, escaped and read as it is meant. -/
structure RowStays (r : Row) : Prop where
  key : ∀ w, r.head.key = some w → w.Sound ∧ w.written.length ≤ Lexer.keyReach
  laid : r.last.Laid
  escapable : (LineEnd.restored r.head r.last).Escapable r.head
  sound : (LineEnd.settled r.head r.last).Sound

variable {h : Head} {key : Option Text}

theorem RowStays.of_stays {last : LineEnd} {source : PlainValue} (hb : Behind h key)
    (hs : LineEnd.Stays h last source) : RowStays ⟨h, last⟩ :=
  ⟨hb.sound, hs.laid, hs.escapable, hs.sound⟩

theorem opening_stays (hb : Behind h key) : ∀ r ∈ h.opening, RowStays r := by
  intro r hr
  obtain ⟨hhead, hlast⟩ := head_of_opening hr
  obtain ⟨_, _⟩ := r
  subst hhead hlast
  exact .of_stays hb LineEnd.stays_nothing

/-- The end of the line of a scalar stays. -/
theorem stays_of_leaf? {T : Yaml.Tree Empty} {l : Leaf} (hl : leaf? T = some l) (hk : KeepsTree key T)
    (hb : Behind h key) : LineEnd.Stays h (.ofLeaf l) T.weaken := by
  cases T with
  | null =>
    obtain rfl := Option.some.inj hl
    exact LineEnd.stays_nothing
  | bool b =>
    obtain rfl := Option.some.inj hl
    exact (LineEnd.plainScalar_bool b).stays
  | int n =>
    obtain rfl := Option.some.inj hl
    exact (LineEnd.plainScalar_int hk).stays
  | float x =>
    obtain rfl := Option.some.inj hl
    exact (LineEnd.plainScalar_float hk).stays
  | text t form =>
    obtain rfl := Option.some.inj hl
    exact LineEnd.stays_text (show KeepsLeaf key ⟨.str, t, form.style?⟩ from hk) hb.bare form
  | bytes b => exact hk.elim
  | moment m => exact hk.elim
  | list items => cases hl
  | tuple items => cases hl
  | set items => cases hl
  | map entries => cases hl
  | foreign value => exact nomatch value

/-! ## Rows -/

mutual

theorem row_stays : ∀ (T : Yaml.Tree Empty) {h : Head} {key : Option Text}, KeepsTree key T →
    Behind h key → ∀ r ∈ (Outline.ofTree T).rows h, RowStays r
  | .null, _, _, hk, hb, r, hr => by
    rw [List.mem_singleton.1 hr]
    exact .of_stays hb (stays_of_leaf? rfl hk hb)
  | .bool _, _, _, hk, hb, r, hr => by
    rw [List.mem_singleton.1 hr]
    exact .of_stays hb (stays_of_leaf? rfl hk hb)
  | .int _, _, _, hk, hb, r, hr => by
    rw [List.mem_singleton.1 hr]
    exact .of_stays hb (stays_of_leaf? rfl hk hb)
  | .float _, _, _, hk, hb, r, hr => by
    rw [List.mem_singleton.1 hr]
    exact .of_stays hb (stays_of_leaf? rfl hk hb)
  | .text .., _, _, hk, hb, r, hr => by
    rw [List.mem_singleton.1 hr]
    exact .of_stays hb (stays_of_leaf? rfl hk hb)
  | .list [], _, _, _, hb, r, hr => by
    rw [List.mem_singleton.1 hr]
    exact .of_stays hb LineEnd.stays_brackets
  | .map [], _, _, _, hb, r, hr => by
    rw [List.mem_singleton.1 hr]
    exact .of_stays hb LineEnd.stays_braces
  | .list (item :: rest), _, _, hk, hb, r, hr => by
    rcases List.mem_append.1 hr with hr | hr
    · exact opening_stays hb r hr
    · exact itemRow_stays (item :: rest) _ _ hk r hr
  | .map (entry :: rest), _, _, hk, hb, r, hr => by
    rcases List.mem_append.1 hr with hr | hr
    · exact opening_stays hb r hr
    · exact entryRow_stays (entry :: rest) _ _ hk.2 r hr
  | .bytes _, _, _, hk, _, _, _ => hk.elim
  | .moment _, _, _, hk, _, _, _ => hk.elim
  | .tuple _, _, _, hk, _, _, _ => hk.elim
  | .set _, _, _, hk, _, _, _ => hk.elim

theorem itemRow_stays : ∀ (items : List (Yaml.Tree Empty)) (margin dashes : Nat), KeepsItems items →
    ∀ r ∈ Outline.itemRows margin dashes (Outline.ofItems items), RowStays r
  | [], _, _, _, _, hr => nomatch hr
  | item :: rest, margin, dashes, hk, r, hr => by
    rcases List.mem_append.1 hr with hr | hr
    · exact row_stays item hk.1 (behind_item margin dashes) r hr
    · exact itemRow_stays rest _ _ hk.2 r hr

theorem entryRow_stays : ∀ (entries : List (Yaml.Tree Empty × Yaml.Tree Empty)) (margin dashes : Nat),
    KeepsEntries entries →
      ∀ r ∈ Outline.entryRows margin dashes (Outline.ofEntries entries), RowStays r
  | [], _, _, _, _, hr => nomatch hr
  | (key, value) :: rest, margin, dashes, hk, r, hr => by
    obtain ⟨⟨k, rfl, hkey⟩, hv, hrest⟩ := hk
    rcases List.mem_append.1 hr with hr | hr
    · exact row_stays value hv (behind_entry hkey margin dashes) r hr
    · exact entryRow_stays rest _ _ hrest r hr

end

/-! ## The whole tree -/

mutual

theorem filled_ofTree : ∀ T : Yaml.Tree Empty, (Outline.ofTree T).Filled
  | .null => trivial
  | .bool _ => trivial
  | .int _ => trivial
  | .float _ => trivial
  | .text .. => trivial
  | .bytes _ => trivial
  | .moment _ => trivial
  | .tuple _ => trivial
  | .set _ => trivial
  | .list [] => trivial
  | .map [] => trivial
  | .list (item :: rest) => ⟨by simp [Outline.ofItems], filled_ofItems (item :: rest)⟩
  | .map ((key, value) :: rest) =>
    ⟨by simp [Outline.ofEntries], filled_ofEntries ((key, value) :: rest)⟩

theorem filled_ofItems : ∀ items : List (Yaml.Tree Empty), Outline.FilledItems (Outline.ofItems items)
  | [] => trivial
  | item :: rest => ⟨filled_ofTree item, filled_ofItems rest⟩

theorem filled_ofEntries : ∀ entries : List (Yaml.Tree Empty × Yaml.Tree Empty),
    Outline.FilledEntries (Outline.ofEntries entries)
  | [] => trivial
  | (_, value) :: rest => ⟨filled_ofTree value, filled_ofEntries rest⟩

end

theorem ofEntries_cons (k : Text) (value : Yaml.Tree Empty)
    (rest : List (Yaml.Tree Empty × Yaml.Tree Empty)) :
    Outline.ofEntries ((.text k .plain, value) :: rest)
      = (keyWord k, Outline.ofTree value) :: Outline.ofEntries rest := rfl

theorem value_keyWord (k : Text) : (keyWord k).value = k := Word.value_ofLeaf true ⟨.str, k, none⟩

theorem onLine_of_keepsLeaf {leaf : Leaf} (hk : KeepsLeaf key leaf) : leaf.OnLine :=
  ⟨hk.literal, hk.folded, .inr hk.tag, hk.unbroken⟩

mutual

theorem lined_of_keeps : ∀ (T : Yaml.Tree Empty) {key : Option Text}, KeepsTree key T → Outline.Lined T
  | .null, _, _ => fun l hl => by
    obtain rfl := Option.some.inj hl
    exact LineEnd.onLine_of_plain rfl
  | .bool b, _, _ => fun l hl => by
    obtain rfl := Option.some.inj hl
    exact (LineEnd.plainScalar_bool b).onLine
  | .int n, _, hk => fun l hl => by
    obtain rfl := Option.some.inj hl
    exact (LineEnd.plainScalar_int hk).onLine
  | .float x, _, hk => fun l hl => by
    obtain rfl := Option.some.inj hl
    exact (LineEnd.plainScalar_float hk).onLine
  | .text t form, _, hk => fun l hl => by
    obtain rfl := Option.some.inj hl
    exact onLine_of_keepsLeaf (show KeepsLeaf _ ⟨.str, t, form.style?⟩ from hk)
  | .list items, _, hk => lined_of_keepsItems items hk
  | .map entries, _, hk => lined_of_keepsEntries entries hk.2
  | .bytes _, _, hk => hk.elim
  | .moment _, _, hk => hk.elim
  | .tuple _, _, hk => hk.elim
  | .set _, _, hk => hk.elim

theorem lined_of_keepsItems : ∀ items : List (Yaml.Tree Empty), KeepsItems items →
    Outline.LinedItems items
  | [], _ => trivial
  | item :: rest, hk => ⟨lined_of_keeps item hk.1, lined_of_keepsItems rest hk.2⟩

theorem lined_of_keepsEntries :
    ∀ entries : List (Yaml.Tree Empty × Yaml.Tree Empty), KeepsEntries entries →
    Outline.LinedEntries entries
  | [], _ => trivial
  | (key, value) :: rest, hk => by
    obtain ⟨⟨k, rfl, written, hw, -⟩, hv, hrest⟩ := hk
    exact ⟨⟨_, written, rfl, hw⟩, lined_of_keeps value hv, lined_of_keepsEntries rest hrest⟩

end

mutual

/-- What is read of a tree that stays agrees with it. -/
theorem means_of_keeps : ∀ (T : Yaml.Tree Empty) {h : Head} {key : Option Text}, KeepsTree key T →
    Behind h key →
      ∃ tree, ((Outline.ofTree T).relabel LineEnd.settled h).tree? = some tree
        ∧ Agrees T.weaken tree
  | .null, _, _, hk, hb => (stays_of_leaf? rfl hk hb).means
  | .bool _, _, _, hk, hb => (stays_of_leaf? rfl hk hb).means
  | .int _, _, _, hk, hb => (stays_of_leaf? rfl hk hb).means
  | .float _, _, _, hk, hb => (stays_of_leaf? rfl hk hb).means
  | .text .., _, _, hk, hb => (stays_of_leaf? rfl hk hb).means
  | .list [], _, _, _, _ => LineEnd.stays_brackets.means
  | .map [], _, _, _, _ => LineEnd.stays_braces.means
  | .list (item :: rest), h, _, hk, _ => by
    obtain ⟨trees, ht, ha⟩ := means_of_keepsItems (item :: rest) h.inner.1 h.inner.2 hk
    refine ⟨.list trees, ?_, trees, rfl, ha⟩
    show (Outline.itemTrees? _).map Yaml.Tree.list = _
    rw [ht]
    rfl
  | .map (entry :: rest), h, _, hk, _ => by
    obtain ⟨trees, ht, ha⟩ := means_of_keepsEntries (entry :: rest) h.inner.1 h.inner.2 hk.2
    refine ⟨.map trees, ?_, trees, rfl, ha⟩
    show (Outline.entryTrees? _).map Yaml.Tree.map = _
    rw [ht]
    rfl
  | .bytes _, _, _, hk, _ => hk.elim
  | .moment _, _, _, hk, _ => hk.elim
  | .tuple _, _, _, hk, _ => hk.elim
  | .set _, _, _, hk, _ => hk.elim

theorem means_of_keepsItems : ∀ (items : List (Yaml.Tree Empty)) (margin dashes : Nat),
    KeepsItems items →
      ∃ trees, Outline.itemTrees?
          (Outline.relabelItems LineEnd.settled margin dashes (Outline.ofItems items)) = some trees
        ∧ AgreesItems (Yaml.Tree.substituteItems nofun items) trees
  | [], _, _, _ => ⟨[], rfl, rfl⟩
  | item :: rest, margin, dashes, hk => by
    obtain ⟨t, ht, ha⟩ := means_of_keeps item hk.1 (behind_item margin dashes)
    obtain ⟨ts, hts, has⟩ := means_of_keepsItems rest (margin + Layout.step * dashes) 0 hk.2
    refine ⟨t :: ts, ?_, t, ts, rfl, ha, has⟩
    rw [Outline.ofItems, Outline.relabelItems, Outline.itemTrees?, ht, hts]
    rfl

theorem means_of_keepsEntries :
    ∀ (entries : List (Yaml.Tree Empty × Yaml.Tree Empty)) (margin dashes : Nat),
    KeepsEntries entries →
      ∃ trees, Outline.entryTrees?
          (Outline.relabelEntries LineEnd.settled margin dashes (Outline.ofEntries entries))
            = some trees
        ∧ AgreesEntries (Yaml.Tree.substituteEntries nofun entries) trees
  | [], _, _, _ => ⟨[], rfl, rfl⟩
  | (key, value) :: rest, margin, dashes, hk => by
    obtain ⟨⟨k, rfl, hkey⟩, hv, hrest⟩ := hk
    obtain ⟨t, ht, ha⟩ := means_of_keeps value hv (behind_entry hkey margin dashes)
    obtain ⟨ts, hts, has⟩ := means_of_keepsEntries rest (margin + Layout.step * dashes) 0 hrest
    refine ⟨((keyWord k).keyTree, t) :: ts, ?_, (keyWord k).style.form, t, ts, ?_, ha, has⟩
    · rw [ofEntries_cons, Outline.relabelEntries, Outline.entryTrees?, ht, hts]
      rfl
    · rw [Word.keyTree, value_keyWord]
      rfl

end

/-- A plain key is a text. -/
theorem str_of_plain_key {k : Text} (hs : (keyWord k).style = .plain) :
    Tag.ofScalar .reduced (keyWord k).value = .str := by
  have hstyle : Leaf.style true ⟨.str, k, none⟩ = .plain := by
    rw [keyWord, Word.ofLeaf] at hs
    split at hs
    · assumption
    · cases hs
    · cases hs
  rw [value_keyWord]
  exact Tag.ofScalar_reduced (isImplicit_of_style hstyle).symm

theorem values_relabelEntries (f : Head → LineEnd → LineEnd)
    {entries : List (Yaml.Tree Empty × Yaml.Tree Empty)}
    (hk : KeepsEntries entries) (margin dashes : Nat) :
    (Outline.relabelEntries f margin dashes (Outline.ofEntries entries)).map (·.1.value)
      = entries.map (·.1.keyText) := by
  induction entries generalizing margin dashes with
  | nil => rfl
  | cons e rest ih =>
    obtain ⟨key, value⟩ := e
    obtain ⟨⟨k, rfl, -⟩, -, hrest⟩ := hk
    rw [ofEntries_cons, Outline.relabelEntries, List.map_cons, List.map_cons, ih hrest,
      value_keyWord]
    rfl

mutual

theorem keyed_of_keeps : ∀ (T : Yaml.Tree Empty) {h : Head} {key : Option Text}, KeepsTree key T →
    ((Outline.ofTree T).relabel LineEnd.settled h).Keyed
  | .null, _, _, _ => trivial
  | .bool _, _, _, _ => trivial
  | .int _, _, _, _ => trivial
  | .float _, _, _, _ => trivial
  | .text .., _, _, _ => trivial
  | .list [], _, _, _ => trivial
  | .map [], _, _, _ => trivial
  | .list (item :: rest), _, _, hk => keyed_of_keepsItems (item :: rest) _ _ hk
  | .map (entry :: rest), _, _, hk =>
    ⟨values_relabelEntries _ hk.2 _ _ ▸ hk.1, keyed_of_keepsEntries (entry :: rest) _ _ hk.2⟩
  | .bytes _, _, _, hk => hk.elim
  | .moment _, _, _, hk => hk.elim
  | .tuple _, _, _, hk => hk.elim
  | .set _, _, _, hk => hk.elim

theorem keyed_of_keepsItems : ∀ (items : List (Yaml.Tree Empty)) (margin dashes : Nat),
    KeepsItems items →
      Outline.KeyedItems (Outline.relabelItems LineEnd.settled margin dashes (Outline.ofItems items))
  | [], _, _, _ => trivial
  | item :: rest, _, _, hk => ⟨keyed_of_keeps item hk.1, keyed_of_keepsItems rest _ _ hk.2⟩

theorem keyed_of_keepsEntries :
    ∀ (entries : List (Yaml.Tree Empty × Yaml.Tree Empty)) (margin dashes : Nat),
    KeepsEntries entries →
      Outline.KeyedEntries
        (Outline.relabelEntries LineEnd.settled margin dashes (Outline.ofEntries entries))
  | [], _, _, _ => trivial
  | (key, value) :: rest, _, _, hk => by
    obtain ⟨⟨k, rfl, -⟩, hv, hrest⟩ := hk
    exact ⟨str_of_plain_key, keyed_of_keeps value hv, keyed_of_keepsEntries rest _ _ hrest⟩

end

end Formula

end ModernControls
