import Mathlib.Data.List.Forall2
import ModernControls.Proofs.Control.Reading
import ModernControls.Proofs.Control.RoundTrip

/-!
# Documents in outlines

A text that is laid out in blocks, every key on a line and every scalar on a line or in a literal
block, is the text of an outline, whoever wrote it. What such a text declares is known from its
outline: each name with what stands below it, and below a name each key with its value.

Results:
- `treeOf_write`: such a text is read as the tree of its escaped outline;
- `declares_of_parse`: the controls of the document are those of the declarations, in order;
- `Declares.control`: what stands below a name is a map, and the control is made from its entries.
-/
namespace ModernControls

open Yaml Layout Formula

namespace Yaml

/-- Whether a row can be escaped, and what it is escaped to is read as it is meant; a word between
quotation marks is one. -/
structure Row.Reads (r : Row) : Prop where
  key : ∀ w, r.head.key = some w → w.Sound ∧ w.written.length ≤ Lexer.keyReach
  quoted : ∀ w, r.last = .word w → w.style ≠ .plain → w.Sound
  escapable : r.last.Escapable r.head
  sound : (r.last.escaped r.head).Sound

namespace Row

variable {margin dashes : Nat} {key : Word}

theorem reads_nothing (hk : key.Sound ∧ key.written.length ≤ Lexer.keyReach) :
    Row.Reads ⟨⟨margin, dashes, some key⟩, .nothing⟩ where
  key _ he := by cases he; exact hk
  quoted _ hw := nomatch hw
  escapable := trivial
  sound := by rw [LineEnd.escaped_nothing]; trivial

/-- What a word is quoted as when it is escaped can be quoted, if the word can. -/
theorem safe_of_treatment {w : Word} (hw : w.Sound) (hsafe : ∀ c ∈ w.value, isSafe c = true)
    {key t : Text} (ht : treatment key w.written = .ok (.quote t)) : ∀ c ∈ t, isSafe c = true := by
  have hmark : ∀ r : Text, (∀ c ∈ r, isSafe c = true) → ∀ c ∈ formulaMark :: r, isSafe c = true := by
    intro r hr c hc
    rcases List.mem_cons.1 hc with rfl | hc
    · decide
    · exact hr c hc
  cases w with
  | single s => rw [treatment_single] at ht; cases ht
  | double ps =>
    rw [treatment_double hw] at ht
    split at ht
    · cases ht
      exact hmark _ hsafe
    · cases ht
  | plain s =>
    by_cases hsign : s.head? = some formulaSign
    · cases s with
      | nil => cases hsign
      | cons c r =>
        obtain rfl : c = formulaSign := Option.some.inj hsign
        rw [Word.written, treatment_of_formula] at ht
        cases ht
        exact hmark _ fun d hd => hsafe d (List.mem_cons_of_mem _ hd)
    · rw [Word.written, treatment_plain hw hsign] at ht
      split at ht
      · cases ht
        exact fun c hc => hsafe c (Text.mem_of_mem_trimEnd hc)
      · cases ht

/-- A row with a word that can be quoted. -/
theorem reads_word (hk : key.Sound ∧ key.written.length ≤ Lexer.keyReach) {w : Word} (hw : w.Sound)
    (hsafe : ∀ c ∈ w.value, isSafe c = true) :
    Row.Reads ⟨⟨margin, dashes, some key⟩, .word w⟩ where
  key _ he := by cases he; exact hk
  quoted w' he _ := by cases he; exact hw
  escapable := .inl hw
  sound := by
    rw [LineEnd.escaped]
    split
    · exact hw
    · dsimp only
      split
      · next ht => exact Word.sound_json (safe_of_treatment hw hsafe ht)
      · exact hw

end Row

/-- Whether the escaper finds a key again on its line. -/
def Word.IsFound (key : Word) : Prop :=
  ∃ c t, key = .plain (c :: t) ∧ startsKey c = true ∧ ':' ∉ t

theorem Head.bareKey?_eq_none_iff {margin dashes : Nat} (hd : dashes ≤ 1) {key : Word} :
    (⟨margin, dashes, some key⟩ : Head).bareKey? = none ↔ ¬ key.IsFound := by
  rw [Head.bareKey?]
  dsimp only
  split
  · next c t heq =>
    obtain rfl : key = .plain (c :: t) := Option.some.inj heq
    constructor
    · rintro h ⟨c', t', he, hc, ht⟩
      obtain ⟨rfl, rfl⟩ := List.cons.inj (Word.plain.inj he)
      rw [if_pos ⟨hd, hc, ht⟩] at h
      cases h
    · intro h
      exact if_neg fun hn => h ⟨c, t, rfl, hn.2.1, hn.2.2⟩
  · next hne =>
    refine iff_of_true rfl ?_
    rintro ⟨c, t, rfl, -⟩
    exact hne c t rfl

namespace Outline

/-! ## Whole texts -/

theorem keys_relabelEntries (f : Head → LineEnd → LineEnd) (entries : List (Word × Outline))
    (margin dashes : Nat) :
    (relabelEntries f margin dashes entries).map (·.1.value) = entries.map (·.1.value) := by
  induction entries generalizing margin dashes with
  | nil => rfl
  | cons e rest ih => rw [relabelEntries, List.map_cons, List.map_cons, ih]

mutual

/-- Other line ends have the same keys before them. -/
theorem keyed_relabel (f : Head → LineEnd → LineEnd) : ∀ (o : Outline) (h : Head), o.Keyed →
    (o.relabel f h).Keyed
  | leaf _, _, _ => trivial
  | list items, _, hk => keyed_relabelItems f items _ _ hk
  | map entries, _, hk =>
    ⟨(keys_relabelEntries f entries _ _).symm ▸ hk.1, keyed_relabelEntries f entries _ _ hk.2⟩

theorem keyed_relabelItems (f : Head → LineEnd → LineEnd) : ∀ (items : List Outline)
    (margin dashes : Nat), KeyedItems items → KeyedItems (relabelItems f margin dashes items)
  | [], _, _, _ => trivial
  | item :: rest, _, _, hk =>
    ⟨keyed_relabel f item _ hk.1, keyed_relabelItems f rest _ _ hk.2⟩

theorem keyed_relabelEntries (f : Head → LineEnd → LineEnd) :
    ∀ (entries : List (Word × Outline)) (margin dashes : Nat), KeyedEntries entries →
      KeyedEntries (relabelEntries f margin dashes entries)
  | [], _, _, _ => trivial
  | (_, value) :: rest, _, _, hk =>
    ⟨hk.1, keyed_relabel f value _ hk.2.1, keyed_relabelEntries f rest _ _ hk.2.2⟩

end

/-- Whether an outline is that of a whole text: a list of maps, or a map. -/
def IsWhole : Outline → Prop
  | leaf _ => False
  | list items => ∀ item ∈ items, ∃ entries, item = map entries
  | map _ => True

/-- Whether an outline is that of a whole text that is read as a tree. -/
structure Says (o : Outline) (tree : PlainValue) : Prop where
  whole : o.IsWhole
  filled : o.Filled
  rows : ∀ r ∈ o.textRows, r.Reads
  keyed : o.Keyed
  means : (o.textRelabel LineEnd.escaped).tree? = some tree

variable {o : Outline} {tree : PlainValue}

theorem Says.ne_leaf (h : o.Says tree) : ∀ last, o ≠ leaf last := by
  rintro last rfl
  exact h.whole

theorem Says.sound (h : o.Says tree) : (o.textRelabel LineEnd.escaped).Sound := by
  refine sound_of_textRows (textRelabel_ne_leaf _ h.ne_leaf) (filled_textRelabel _ h.filled)
    fun r hm => ?_
  rw [textRows_relabel LineEnd.escaped_nothing] at hm
  obtain ⟨s, hs, rfl⟩ := List.mem_map.1 hm
  exact ⟨(h.rows s hs).key, (h.rows s hs).sound⟩

theorem maps_relabel (f : Head → LineEnd → LineEnd) {items : List Outline}
    (h : ∀ item ∈ items, ∃ entries, item = map entries) (margin dashes : Nat) :
    ∀ o ∈ relabelItems f margin dashes items, ∃ entries, o = map entries := by
  induction items generalizing margin dashes with
  | nil => exact fun _ ho => nomatch ho
  | cons item rest ih =>
    intro o ho
    rcases List.mem_cons.1 ho with rfl | ho
    · obtain ⟨entries, rfl⟩ := h item List.mem_cons_self
      exact ⟨_, rfl⟩
    · exact ih (fun item hi => h item (List.mem_cons_of_mem _ hi)) _ _ o ho

theorem Says.not_return (h : o.Says tree) : '\r' ∉ o.write .start 0 :=
  not_return_write h.ne_leaf h.filled fun r hr =>
    ⟨fun w hw => ((h.rows r hr).key w hw).1, (h.rows r hr).escapable⟩

/-- A text of an outline is read in the same way whatever its breaks are. -/
theorem parse_of_unifyBreaks (h : o.Says tree) {text : Text}
    (ht : text.unifyBreaks = o.write .start 0) :
    Document.parse text = Document.parse (o.write .start 0) := by
  rw [Document.parse, Document.parse, Document.treeOf, Document.treeOf, escape, escape, ht,
    Text.unifyBreaks_eq h.not_return]

/-- A text of an outline is read as the tree of its escaped outline. -/
theorem treeOf_write (h : o.Says tree) : Document.treeOf (o.write .start 0) = .ok tree := by
  have hescape := escape_write h.ne_leaf h.filled fun r hr =>
    ⟨fun w hw => ((h.rows r hr).key w hw).1, (h.rows r hr).escapable⟩
  have hread : Yaml.Tree.ofText .reduced ((o.textRelabel LineEnd.escaped).write .start 0)
      = .ok tree := by
    have hsound := h.sound
    have hkeyed := h.keyed
    have hmeans := h.means
    cases o with
    | leaf last => exact h.whole.elim
    | list items =>
      exact ofText_write_list hsound (keyed_relabelItems _ items 0 0 hkeyed) hmeans
        (maps_relabel _ h.whole 0 0)
    | map entries =>
      have hkeys := keys_relabelEntries LineEnd.escaped entries 0 0
      exact ofText_write_map hsound
        ⟨hkeys.symm ▸ hkeyed.1, keyed_relabelEntries _ entries 0 0 hkeyed.2⟩ hmeans
  rw [Document.treeOf, hescape]
  dsimp only
  rw [hread]

/-! ## What stands behind a head -/

/-- Whether an outline behind a head is read as a tree. -/
structure SaysBehind (h : Head) (o : Outline) (tree : PlainValue) : Prop where
  rows : ∀ r ∈ o.rows h, r.Reads
  keyed : o.Keyed
  means : (o.relabel LineEnd.escaped h).tree? = some tree

/-- Whether an entry of a map is read as a key with its value. -/
def SaysEntry (e : Word × Outline) (entry : PlainValue × PlainValue) : Prop :=
  entry.1 = e.1.keyTree
    ∧ ∃ margin dashes, dashes ≤ 1 ∧ SaysBehind ⟨margin, dashes, some e.1⟩ e.2 entry.2

theorem saysEntries_of_means {entries : List (Word × Outline)} {margin dashes : Nat}
    (hd : dashes ≤ 1) (hr : ∀ r ∈ entryRows margin dashes entries, r.Reads)
    (hk : KeyedEntries entries) {trees : List (PlainValue × PlainValue)}
    (hm : entryTrees? (relabelEntries LineEnd.escaped margin dashes entries) = some trees) :
    List.Forall₂ SaysEntry entries trees := by
  induction entries generalizing margin dashes trees with
  | nil =>
    obtain rfl : [] = trees := Option.some.inj hm
    exact .nil
  | cons e rest ih =>
    obtain ⟨k, o⟩ := e
    rw [relabelEntries, entryTrees?] at hm
    cases htree : (o.relabel LineEnd.escaped ⟨margin, dashes, some k⟩).tree? with
    | none => rw [htree] at hm; cases hm
    | some tree =>
      cases htrees : entryTrees?
          (relabelEntries LineEnd.escaped (margin + Layout.step * dashes) 0 rest) with
      | none => rw [htree, htrees] at hm; cases hm
      | some ts =>
        rw [htree, htrees] at hm
        obtain rfl : (k.keyTree, tree) :: ts = trees := Option.some.inj hm
        refine .cons ⟨rfl, margin, dashes, hd, fun r hm => hr r (List.mem_append_left _ hm), hk.2.1,
          htree⟩ ?_
        exact ih (Nat.zero_le _) (fun r hm => hr r (List.mem_append_right _ hm)) hk.2.2 htrees

/-- The entries of a map are read as the entries of its tree. -/
theorem SaysBehind.entries {h : Head} (hd : h.inner.2 ≤ 1) {entries : List (Word × Outline)}
    (hs : SaysBehind h (map entries) tree) :
    ∃ trees, tree = .map trees ∧ List.Forall₂ SaysEntry entries trees
      ∧ (entries.map (·.1.value)).Nodup := by
  have hm := hs.means
  rw [relabel, tree?] at hm
  obtain ⟨trees, htrees, rfl⟩ := Option.map_eq_some_iff.1 hm
  exact ⟨trees, rfl, saysEntries_of_means hd (fun r hr => hs.rows r (List.mem_append_right _ hr))
    hs.keyed.2 htrees, hs.keyed.1⟩

/-- The declarations of a whole text: the names and what stands below them. -/
def declared : Outline → List (Word × Outline)
  | leaf _ => []
  | list items => items.flatMap fun
    | map entries => entries
    | _ => []
  | map entries => entries

/-- The items of a list of declarations are read as maps with one entry each. -/
theorem declarations_of_means {items : List Outline}
    (hmaps : ∀ item ∈ items, ∃ entries, item = map entries)
    (hr : ∀ r ∈ itemRows 0 0 items, r.Reads)
    (hk : KeyedItems items) {trees : List PlainValue}
    (hm : itemTrees? (relabelItems LineEnd.escaped 0 0 items) = some trees)
    {entries : List (PlainValue × PlainValue)} (hd : Document.declarations trees = .ok entries) :
    List.Forall₂ SaysEntry (list items).declared entries := by
  induction items generalizing trees entries with
  | nil =>
    obtain rfl : [] = trees := Option.some.inj hm
    obtain rfl : [] = entries := Except.ok.inj hd
    exact .nil
  | cons item rest ih =>
    obtain ⟨es, rfl⟩ := hmaps item List.mem_cons_self
    rw [relabelItems, itemTrees?] at hm
    cases htree : ((map es).relabel LineEnd.escaped ⟨0, 0, none⟩).tree? with
    | none => rw [htree] at hm; cases hm
    | some tree =>
      cases htrees : itemTrees? (relabelItems LineEnd.escaped (0 + Layout.step * 0) 0 rest) with
      | none => rw [htree, htrees] at hm; cases hm
      | some ts =>
        rw [htree, htrees] at hm
        obtain rfl : tree :: ts = trees := Option.some.inj hm
        have hitem : SaysBehind ⟨0, 0, none⟩ (map es) tree :=
          ⟨fun r hm => hr r (List.mem_append_left _ hm), hk.1, htree⟩
        obtain ⟨inside, rfl, hinside, -⟩ := hitem.entries (Nat.le_refl _)
        obtain ⟨entry, others, he, rfl, hothers⟩ := Document.declarations_cons hd
        obtain rfl := Yaml.Tree.map.inj he
        exact List.rel_append hinside (ih (fun item hi => hmaps item (List.mem_cons_of_mem _ hi))
          (fun r hm => hr r (List.mem_append_right _ hm)) hk.2 htrees hothers)

/-- What a declaration says is what its control is made from. -/
def Declares (e : Word × Outline) (c : Text × Control) : Prop :=
  c.1 = e.1.value ∧ ∃ entry, SaysEntry e entry ∧ Control.ofTree c.1 entry.2 = .ok c.2

theorem declares_of_controlsOf {es : List (Word × Outline)}
    {entries : List (PlainValue × PlainValue)} (hs : List.Forall₂ SaysEntry es entries)
    {known controls : Table Control} (h : Document.controlsOf known entries = .ok controls) :
    ∃ new, controls = known ++ new ∧ List.Forall₂ Declares es new := by
  induction hs generalizing known with
  | nil =>
    obtain rfl : known = controls := Except.ok.inj h
    exact ⟨[], (List.append_nil _).symm, .nil⟩
  | @cons e entry es entries hentry _ ih =>
    obtain ⟨key, body⟩ := entry
    obtain rfl : key = e.1.keyTree := hentry.1
    rw [Document.controlsOf] at h
    obtain ⟨name, hname, h⟩ := exists_of_bind h
    obtain rfl : name = e.1.value := Control.eq_keyText_of_keyName hname
    split at h
    · cases h
    · obtain ⟨control, hcontrol, h⟩ := exists_of_bind h
      obtain ⟨new, rfl, hnew⟩ := ih h
      exact ⟨(e.1.value, control) :: new, by simp, .cons ⟨rfl, _, hentry, hcontrol⟩ hnew⟩

/-- The controls of a document are those that the outline of its text declares, in order. -/
theorem declares_of_parse (h : o.Says tree) {text : Text} (ht : text.unifyBreaks = o.write .start 0)
    {d : Document} (hp : Document.parse text = .ok d) :
    List.Forall₂ Declares o.declared d.controls := by
  rw [parse_of_unifyBreaks h ht, Document.parse] at hp
  simp only [bind, Except.bind, treeOf_write h] at hp
  have hdone : ∀ {asSequence : Bool} {es : List (Word × Outline)}
      {entries : List (PlainValue × PlainValue)}, List.Forall₂ SaysEntry es entries →
      Document.ofDeclarations asSequence entries = .ok d → List.Forall₂ Declares es d.controls := by
    intro asSequence es entries hs hd
    rw [Document.ofDeclarations] at hd
    split at hd
    · cases hd
    · obtain ⟨controls, hcontrols, rfl⟩ := exists_of_map hd
      obtain ⟨new, rfl, hnew⟩ := declares_of_controlsOf hs hcontrols
      exact hnew
  have hrows := h.rows
  have hkeyed := h.keyed
  have hmeans := h.means
  cases o with
  | leaf last => exact h.whole.elim
  | list items =>
    obtain ⟨trees, htrees, rfl⟩ := Option.map_eq_some_iff.1 hmeans
    obtain ⟨entries, hentries, hp⟩ := exists_of_bind hp
    exact hdone (declarations_of_means h.whole hrows hkeyed htrees hentries) hp
  | map es =>
    obtain ⟨entries, hentries, rfl⟩ := Option.map_eq_some_iff.1 hmeans
    exact hdone (saysEntries_of_means (Nat.zero_le _) hrows hkeyed.2 hentries) hp

/-! ## Controls -/

/-- The only map on a line is the one without entries. -/
theorem eq_nil_of_tree? {last : LineEnd} {entries : List (PlainValue × PlainValue)}
    (h : last.tree? = some (.map entries)) : entries = [] := by
  cases last with
  | braces => cases h; rfl
  | word w =>
    rw [LineEnd.tree?, scalarTree?] at h
    split at h
    · rw [plainTree?] at h
      split at h
      · cases h
      · obtain ⟨b, -, hb⟩ := Option.map_eq_some_iff.1 h
        cases hb
      · obtain ⟨n, -, hn⟩ := Option.map_eq_some_iff.1 h
        cases hn
      · split at h
        · split at h <;> cases h
        · cases h
        · cases h
      · cases h
      · cases h
    · cases h
  | _ => cases h

/-- What stands below a name is a map, and the control is made from its entries. -/
theorem Declares.control {e : Word × Outline} {c : Text × Control} (h : Declares e c) :
    ∃ entries trees, e.2 = map entries ∧ List.Forall₂ SaysEntry entries trees
      ∧ (entries.map (·.1.value)).Nodup ∧ Control.ofEntries c.1 trees = .ok c.2 := by
  obtain ⟨-, ⟨key, body⟩, ⟨-, margin, dashes, -, hbody⟩, hcontrol⟩ := h
  obtain ⟨k, o⟩ := e
  have hm := hbody.means
  cases o with
  | map entries =>
    obtain ⟨trees, rfl, htrees, hkeys⟩ := hbody.entries (Nat.zero_le _)
    exact ⟨entries, trees, rfl, htrees, hkeys, hcontrol⟩
  | list items =>
    obtain ⟨trees, -, rfl⟩ := Option.map_eq_some_iff.1 hm
    cases hcontrol
  | leaf last =>
    cases body with
    | map entries =>
      obtain rfl := eq_nil_of_tree? hm
      cases hcontrol
    | _ => cases hcontrol

/-- The value under a key. -/
theorem lookup_of_says {entries : List (Word × Outline)} {trees : List (PlainValue × PlainValue)}
    (hs : List.Forall₂ SaysEntry entries trees) (hk : (entries.map (·.1.value)).Nodup)
    {e : Word × Outline} (he : e ∈ entries) :
    ∃ tree, Yaml.Tree.lookup trees e.1.value = some tree ∧ SaysEntry e (e.1.keyTree, tree) := by
  induction hs with
  | nil => cases he
  | @cons e' entry es trees hentry _ ih =>
    obtain ⟨key, body⟩ := entry
    obtain rfl : key = e'.1.keyTree := hentry.1
    rw [List.map_cons, List.nodup_cons] at hk
    rw [Word.keyTree, Yaml.Tree.lookup]
    rcases List.mem_cons.1 he with rfl | he
    · exact ⟨body, if_pos rfl, hentry⟩
    · have hne : e'.1.value ≠ e.1.value := fun heq =>
        hk.1 (heq ▸ List.mem_map_of_mem (f := fun e : Word × Outline => e.1.value) he)
      rw [if_neg hne]
      exact ih hk.2 he

/-! ## Quoted words -/

variable {key w : Word} {margin dashes : Nat}

theorem not_mark_of_single {t : Text} (h : (Word.single t).Sound) : t.head? ≠ some formulaMark :=
  fun hm => absurd (h _ (List.mem_of_mem_head? hm)) (by decide)

/-- What a quoted word is read as: its text, after another mark if it begins with the mark behind a
key that is found again. -/
theorem tree_of_quoted (hd : dashes ≤ 1) (hq : w.style ≠ .plain)
    (hs : SaysBehind ⟨margin, dashes, some key⟩ (.leaf (.word w)) tree) :
    tree = .text w.value .quoted ∧ (key.IsFound → w.value.head? ≠ some formulaMark)
      ∨ tree = .text (formulaMark :: w.value) .quoted ∧ key.IsFound
        ∧ w.value.head? = some formulaMark := by
  have hrow := hs.rows ⟨⟨margin, dashes, some key⟩, .word w⟩ (List.mem_singleton.2 rfl)
  have hw : w.Sound := hrow.quoted w rfl hq
  have hm : (LineEnd.escaped ⟨margin, dashes, some key⟩ (.word w)).tree? = some tree := hs.means
  cases hbare : (⟨margin, dashes, some key⟩ : Head).bareKey? with
  | none =>
    rw [LineEnd.escaped_of_none hbare, LineEnd.tree?_quoted hq] at hm
    exact .inl ⟨(Option.some.inj hm).symm, fun hf => absurd hf ((Head.bareKey?_eq_none_iff hd).1 hbare)⟩
  | some k =>
    have hfound : key.IsFound := by
      by_contra hn
      rw [(Head.bareKey?_eq_none_iff hd).2 hn] at hbare
      cases hbare
    cases w with
    | plain t => exact absurd rfl hq
    | single t =>
      rw [LineEnd.escaped_keep hbare (treatment_single t _), LineEnd.tree?_quoted hq] at hm
      exact .inl ⟨(Option.some.inj hm).symm, fun _ => not_mark_of_single hw⟩
    | double ps =>
      by_cases hmark : (Word.double ps).value.head? = some formulaMark
      · have ht := treatment_double hw (Text.trim k)
        rw [if_pos hmark] at ht
        rw [LineEnd.escaped_quote hbare ht, LineEnd.tree?_quoted (by simp), Word.value_ofJson] at hm
        exact .inr ⟨(Option.some.inj hm).symm, hfound, hmark⟩
      · have ht := treatment_double hw (Text.trim k)
        rw [if_neg hmark] at ht
        rw [LineEnd.escaped_keep hbare ht, LineEnd.tree?_quoted hq] at hm
        exact .inl ⟨(Option.some.inj hm).symm, fun _ => hmark⟩

end Outline

end Yaml

end ModernControls
