import ModernControls.Proofs.Control.Formulas
import ModernControls.Proofs.Yaml.LongKeys

/-!
# Controls of quoted lines

Formulas and some plain values are put between quotation marks before a text is read. A control
whose properties stand on lines with such values is read with the texts that are quoted for them.

A key is read as YAML text before it becomes a text again. A key that is a word for a truth value or
for nothing says that value, and the value is shown as `True`, `False` or `None`, however the word
was spelled. Any other word is the text that it is.

Results:
- `Word.tree?_plain`: what a word says as a key;
- `escape_linesText`: the values of such lines are put between quotation marks;
- `treeOf_linesText`: what a control of such lines says, and when it can be read;
- `parse_linesText`: what it is read as.
-/
namespace ModernControls

open Yaml Layout Formula

/-! ## What a key says -/

/-- What a key without quotation marks says. -/
def saidKey {α : Type} (k : Text) : Yaml.Tree α :=
  match Table.get? Tag.truthWords k with
  | some b => .bool b
  | none => if Tag.nullWords.contains k then .null else .text k .plain

/-- The text that it becomes. -/
def shownKey (k : Text) : Text :=
  match Table.get? Tag.truthWords k with
  | some b => Yaml.Tree.shownBool b
  | none => if Tag.nullWords.contains k then "None".toList else k

section Keys

variable {α : Type} {k l : Text}

/-- A word for a truth value says it. -/
theorem truth_of_get? {b : Bool} (h : Table.get? Tag.truthWords k = some b) :
    (Number.truth k).toOption = some b := by
  have hall : ∀ e ∈ Tag.truthWords, (Number.truth e.1).toOption = some e.2 := by decide +kernel
  exact hall _ (Table.mem_of_get? h)

/-- What a word says as a key. -/
theorem Word.tree?_plain (h : IsLettered k) :
    (Word.plain k).tree? = some (saidKey k : Yaml.Tree α) := by
  rw [Word.tree?, scalarTree?, if_pos (show (Word.plain k).style = .plain from rfl), Word.value,
    plainTree?, h.ofScalar, Table.any_keys, saidKey, Table.hasKey]
  cases hb : Table.get? Tag.truthWords k with
  | some b =>
    simp only [Option.isSome_some, if_true, truth_of_get? hb]
    rfl
  | none =>
    simp only [Option.isSome_none, Bool.false_eq_true, if_false]
    by_cases hn : Tag.nullWords.contains k = true
    · simp only [hn, if_true]
    · simp only [hn, Bool.false_eq_true, if_false]

/-- A key says a truth value, nothing, or itself, and it is shown as that. -/
theorem saidKey_cases (k : Text) :
    (∃ b, (saidKey k : Yaml.Tree α) = .bool b ∧ shownKey k = Yaml.Tree.shownBool b)
      ∨ ((saidKey k : Yaml.Tree α) = .null ∧ shownKey k = "None".toList)
      ∨ ((saidKey k : Yaml.Tree α) = .text k .plain ∧ shownKey k = k) := by
  rw [saidKey, shownKey]
  split
  · next b _ => exact .inl ⟨b, rfl, rfl⟩
  · split
    · exact .inr (.inl ⟨rfl, rfl⟩)
    · exact .inr (.inr ⟨rfl, rfl⟩)

/-- A key becomes the text that it is shown as. -/
theorem keyName_saidKey (k : Text) : keyName (saidKey k) = .ok (shownKey k) := by
  rcases saidKey_cases k with ⟨b, hs, ht⟩ | ⟨hs, ht⟩ | ⟨hs, ht⟩ <;> rw [hs, ht] <;> rfl

/-- Keys that say the same are shown as the same. -/
theorem shownKey_of_sameKey (h : Draft.sameKey (saidKey k) (saidKey l) = true) :
    shownKey k = shownKey l := by
  rcases saidKey_cases k with ⟨b, hk, hk'⟩ | ⟨hk, hk'⟩ | ⟨hk, hk'⟩
    <;> rcases saidKey_cases l with ⟨b', hl, hl'⟩ | ⟨hl, hl'⟩ | ⟨hl, hl'⟩
    <;> rw [hk, hl] at h <;> rw [hk', hl']
  case inl.inl => cases b <;> cases b' <;> first | rfl | cases h
  case inr.inr.inr.inr => exact of_decide_eq_true h
  all_goals cases h

/-- A word that is none for another value is shown as it is. -/
theorem shownKey_of_isWord (h : IsWord k) : shownKey k = k := by
  obtain ⟨htruth, hnull⟩ := h.not_valueWord
  have hget : Table.get? Tag.truthWords k = none := by
    rw [Table.any_keys, Table.hasKey] at htruth
    simpa using htruth
  rw [shownKey, hget, hnull]
  rfl

/-- Words that are shown as they are say different things. -/
theorem differ_of_shownKey {keys : List Text} (hkeys : ∀ k ∈ keys, IsLettered k)
    (hdistinct : keys.Nodup) (h : ∀ k ∈ keys, shownKey k = k) :
    (keys.map Word.plain).Pairwise Word.Differ := by
  rw [List.pairwise_map]
  refine hdistinct.imp_of_mem fun {k l} hk hl hne a b ha hb => ?_
  rw [Word.tree?_plain (hkeys k hk)] at ha
  rw [Word.tree?_plain (hkeys l hl)] at hb
  obtain rfl := Option.some.inj ha
  obtain rfl := Option.some.inj hb
  refine Bool.eq_false_iff.2 fun hsame => hne ?_
  rw [← h k hk, ← h l hl, shownKey_of_sameKey hsame]

end Keys

/-! ## The outline of a control -/

namespace Yaml.Outline

/-- Entries on lines of their own, or nothing. -/
def ofLines : List (Text × LineEnd) → Outline
  | [] => leaf .nothing
  | line :: lines => map ((line :: lines).map fun l => (.plain l.1, .leaf l.2))

/-- A list with a control: its name, its type, and the lines of its properties. -/
def ofControl (name : Text) (type : LineEnd) (lines : List (Text × LineEnd)) : Outline :=
  list [map [(.plain name, map [(.plain typeKey, leaf type),
    (.plain propertiesKey, ofLines lines)])]]

variable {α : Type} {name : Text} {type : LineEnd} {lines : List (Text × LineEnd)}

theorem filledEntries_lines (lines : List (Text × LineEnd)) :
    FilledEntries (lines.map fun l => (.plain l.1, .leaf l.2)) := by
  induction lines with
  | nil => trivial
  | cons l rest ih => exact ⟨trivial, ih⟩

theorem filled_ofControl (name : Text) (type : LineEnd) (lines : List (Text × LineEnd)) :
    (ofControl name type lines).Filled := by
  have hlines : (ofLines lines).Filled := by
    cases lines with
    | nil => trivial
    | cons l rest => exact ⟨List.cons_ne_nil _ _, filledEntries_lines (l :: rest)⟩
  exact ⟨List.cons_ne_nil _ _, ⟨List.cons_ne_nil _ _,
    ⟨List.cons_ne_nil _ _, trivial, hlines, trivial⟩, trivial⟩, trivial⟩

theorem entryRows_lines (margin : Nat) (lines : List (Text × LineEnd)) :
    entryRows margin 0 (lines.map fun l => (.plain l.1, .leaf l.2))
      = lines.map fun l => ⟨⟨margin, 0, some (.plain l.1)⟩, l.2⟩ := by
  induction lines with
  | nil => rfl
  | cons l rest ih => exact congrArg (_ :: ·) ih

/-- The rows of a control: its name, its type, the key of its properties, and their lines. -/
theorem textRows_ofControl (name : Text) (type : LineEnd) (lines : List (Text × LineEnd)) :
    (ofControl name type lines).textRows
      = ⟨⟨0, 1, some (.plain name)⟩, .nothing⟩ :: ⟨⟨4, 0, some (.plain typeKey)⟩, type⟩
        :: ⟨⟨4, 0, some (.plain propertiesKey)⟩, .nothing⟩
        :: lines.map fun l => ⟨⟨6, 0, some (.plain l.1)⟩, l.2⟩ := by
  have hlines : (ofLines lines).rows ⟨4, 0, some (.plain propertiesKey)⟩
      = ⟨⟨4, 0, some (.plain propertiesKey)⟩, .nothing⟩
        :: lines.map fun l => ⟨⟨6, 0, some (.plain l.1)⟩, l.2⟩ := by
    rw [← entryRows_lines]
    cases lines <;> rfl
  simp [ofControl, textRows, itemRows, entryRows, rows, Head.opening, Head.inner, Head.column,
    Layout.step, hlines]

/-- Replacing line ends replaces those of the type and of the lines. -/
theorem textRelabel_ofControl {f : Head → LineEnd → LineEnd} (hf : ∀ h, f h .nothing = .nothing)
    (name : Text) (type : LineEnd) (lines : List (Text × LineEnd)) :
    (ofControl name type lines).textRelabel f
      = ofControl name (f ⟨4, 0, some (.plain typeKey)⟩ type)
        (lines.map fun l => (l.1, f ⟨6, 0, some (.plain l.1)⟩ l.2)) := by
  have hentries : ∀ lines : List (Text × LineEnd),
      relabelEntries f 6 0 (lines.map fun l => (.plain l.1, .leaf l.2))
        = lines.map fun l => (.plain l.1, .leaf (f ⟨6, 0, some (.plain l.1)⟩ l.2)) := by
    intro lines
    induction lines with
    | nil => rfl
    | cons l rest ih => exact congrArg (_ :: ·) ih
  have hlines : (ofLines lines).relabel f ⟨4, 0, some (.plain propertiesKey)⟩
      = ofLines (lines.map fun l => (l.1, f ⟨6, 0, some (.plain l.1)⟩ l.2)) := by
    cases lines with
    | nil => exact congrArg leaf (hf _)
    | cons l rest =>
      refine (congrArg map (hentries (l :: rest))).trans ?_
      simp [ofLines, Function.comp_def]
  exact congrArg (fun o => list [map [(.plain name, map [(.plain typeKey, leaf (f _ type)),
    (.plain propertiesKey, o)])]]) hlines

/-- The words of a control can be read if those of its name, its type and its lines can. -/
theorem worded_ofControl (hname : isPlainText name = true) (htype : type.Sound)
    (hlines : ∀ l ∈ lines, isPlainText l.1 = true ∧ l.2.Sound) :
    (ofControl name type lines).Worded := by
  have hentries : ∀ lines : List (Text × LineEnd),
      (∀ l ∈ lines, isPlainText l.1 = true ∧ l.2.Sound) →
        WordedEntries (lines.map fun l => (.plain l.1, .leaf l.2)) := by
    intro lines
    induction lines with
    | nil => exact fun _ => trivial
    | cons l rest ih =>
      exact fun h => ⟨(h l List.mem_cons_self).1, (h l List.mem_cons_self).2,
        ih fun g hg => h g (List.mem_cons_of_mem _ hg)⟩
  have hown : isPlainText typeKey = true ∧ isPlainText propertiesKey = true := by decide +kernel
  have hlines : (ofLines lines).Worded := by
    cases lines with
    | nil => trivial
    | cons l rest => exact ⟨List.cons_ne_nil _ _, hentries (l :: rest) hlines⟩
  exact ⟨List.cons_ne_nil _ _, ⟨List.cons_ne_nil _ _, hname,
    ⟨List.cons_ne_nil _ _, hown.1, htype, hown.2, hlines, trivial⟩, trivial⟩, trivial⟩

theorem shortEntries_lines (lines : List (Text × LineEnd)) :
    ShortEntries (lines.map fun l => (.plain l.1, .leaf l.2))
      ↔ ∀ l ∈ lines, l.1.length ≤ Lexer.keyReach := by
  induction lines with
  | nil => simp [ShortEntries]
  | cons l rest ih => simp [ShortEntries, Short, Word.written, ih]

/-- The keys of a control with a short name are short if those of its lines are. -/
theorem short_ofControl (hname : name.length ≤ Lexer.keyReach) :
    (ofControl name type lines).Short ↔ ∀ l ∈ lines, l.1.length ≤ Lexer.keyReach := by
  have hown : typeKey.length ≤ Lexer.keyReach ∧ propertiesKey.length ≤ Lexer.keyReach := by decide
  have hlines : (ofLines lines).Short ↔ ∀ l ∈ lines, l.1.length ≤ Lexer.keyReach := by
    cases lines with
    | nil => simp [ofLines, Short]
    | cons l rest => exact shortEntries_lines (l :: rest)
  simp [ofControl, Short, ShortItems, ShortEntries, Word.written, hname, hown, hlines]

theorem distinctEntries_lines (lines : List (Text × LineEnd)) :
    DistinctEntries (lines.map fun l => (.plain l.1, .leaf l.2)) := by
  induction lines with
  | nil => trivial
  | cons l rest ih => exact ⟨trivial, ih⟩

/-- No map of a control has a key twice, if no line does. -/
theorem distinct_ofControl : (ofControl name type lines).Distinct
    ↔ (lines.map fun l => Word.plain l.1).Pairwise Word.Differ := by
  have hown : (Word.plain typeKey).Differ (.plain propertiesKey) :=
    Word.differ_of_isText (fun _ => by decide +kernel) (fun _ => by decide +kernel)
      (by decide +kernel)
  have hlines : (ofLines lines).Distinct
      ↔ (lines.map fun l => Word.plain l.1).Pairwise Word.Differ := by
    cases lines with
    | nil => simp [ofLines, Distinct]
    | cons l rest =>
      rw [ofLines, Distinct, List.map_map]
      exact and_iff_left (distinctEntries_lines (l :: rest))
  simp [ofControl, Distinct, DistinctItems, DistinctEntries, hown, hlines]

end Yaml.Outline

/-! ## Lines with quoted values -/

namespace Document

open Outline

/-- A line with a key, the value behind it, and the text that is quoted for the value. -/
structure QuotedLine where
  key : Text
  value : Text
  text : Text

/-- Whether the text is quoted for the value, and can be read again. -/
structure QuotedLine.Sound (l : QuotedLine) : Prop where
  key : IsLettered l.key
  begins : Begins l.value
  one : LineEnd.OneLine l.value
  treated : treatment l.key.trim l.value = .ok (.quote l.text)
  safe : ∀ c ∈ l.text, isSafe c = true

/-- The line. -/
def QuotedLine.line (l : QuotedLine) : Text :=
  Text.spaces 6 ++ l.key ++ [':', ' '] ++ l.value ++ ['\n']

variable {name tag : Text} {lines : List QuotedLine}

/-- The text of a control with such lines. -/
def linesText (name tag : Text) (lines : List QuotedLine) : Text :=
  ['-', ' '] ++ name ++ [':', '\n']
    ++ Text.spaces 4 ++ typeKey ++ [':', ' '] ++ tag ++ ['\n']
    ++ Text.spaces 4 ++ propertiesKey ++ [':', '\n']
    ++ lines.flatMap QuotedLine.line

/-- Its outline. -/
def linesOutline (name tag : Text) (lines : List QuotedLine) : Outline :=
  ofControl name (.word (.plain tag)) (lines.map fun l => (l.key, .word (.plain l.value)))

/-- Its outline after it has been escaped. -/
def quotedOutline (name tag : Text) (lines : List QuotedLine) : Outline :=
  ofControl name (.word (.ofJson tag)) (lines.map fun l => (l.key, .word (.ofJson l.text)))

theorem write_linesOutline (name tag : Text) (lines : List QuotedLine) :
    (linesOutline name tag lines).write .start 0 = linesText name tag lines := by
  have hlines : (lines.map fun l =>
      (⟨⟨6, 0, some (.plain l.key)⟩, .word (.plain l.value)⟩ : Row)).flatMap Row.write
        = lines.flatMap QuotedLine.line := by
    rw [List.flatMap_map]
    refine List.flatMap_congr fun l _ => ?_
    simp [Row.write, Head.text, Head.lead, Head.mark, LineEnd.write, Word.written, QuotedLine.line]
  rw [linesOutline, write_textRows (by simp [ofControl]) (filled_ofControl _ _ _),
    ← closedLines_flatMap, textRows_ofControl, List.map_map]
  simp only [List.flatMap_cons, Function.comp_def, hlines]
  simp [Row.write, Head.text, Head.lead, Head.mark, LineEnd.write, Word.written, linesText,
    Text.spaces]

theorem isLettered_own : IsLettered typeKey ∧ IsLettered propertiesKey :=
  ⟨⟨⟨_, _, rfl, by decide⟩, by decide⟩, ⟨⟨_, _, rfl, by decide⟩, by decide⟩⟩

/-- The values and a type with a version are quoted behind their keys. -/
theorem textRelabel_linesOutline (htag : IsVersioned tag) (hlines : ∀ l ∈ lines, l.Sound) :
    (linesOutline name tag lines).textRelabel LineEnd.escaped = quotedOutline name tag lines := by
  have htype : LineEnd.escaped ⟨4, 0, some (.plain typeKey)⟩ (.word (.plain tag))
      = .word (.ofJson tag) := LineEnd.escaped_quote (isLettered_own.1.bareKey? (Nat.zero_le _))
    (treatment_versioned (isVersionedType_of_isVersioned htag) (head_of_isVersioned htag).1
      (head_of_isVersioned htag).2.1)
  rw [linesOutline, textRelabel_ofControl LineEnd.escaped_nothing, htype, quotedOutline,
    List.map_map]
  congr 1
  refine List.map_congr_left fun l hl => ?_
  exact congrArg (l.key, ·)
    (LineEnd.escaped_quote ((hlines l hl).key.bareKey? (Nat.zero_le _)) (hlines l hl).treated)

theorem escape_linesText (hname : IsName name) (htag : IsVersioned tag)
    (hlines : ∀ l ∈ lines, l.Sound) :
    escape (linesText name tag lines) = .ok ((quotedOutline name tag lines).write .start 0) := by
  have hversion := isVersionedType_of_isVersioned htag
  have hbare : (⟨4, 0, some (.plain typeKey)⟩ : Head).bareKey? = some typeKey :=
    isLettered_own.1.bareKey? (Nat.zero_le _)
  have hsound : ∀ {margin dashes : Nat} {k : Text}, IsLettered k →
      (⟨margin, dashes, some (.plain k)⟩ : Head).Sound := fun hk w hw => by
    cases hw
    exact hk.isPlainText
  have hrows : ∀ r ∈ (linesOutline name tag lines).textRows,
      r.head.Sound ∧ r.last.Escapable r.head := by
    simp only [linesOutline, textRows_ofControl, List.forall_mem_cons, List.forall_mem_map]
    refine ⟨⟨hsound hname.lettered, trivial⟩, ⟨hsound isLettered_own.1, .inr ?_⟩,
      ⟨hsound isLettered_own.2, trivial⟩, fun l hl => ⟨hsound (hlines l hl).key, .inr ?_⟩⟩
    · exact ⟨begins_versioned hversion, oneLine_versioned hversion, typeKey, hbare, tag,
        treatment_versioned hversion (head_of_isVersioned htag).1 (head_of_isVersioned htag).2.1⟩
    · have hl := hlines l hl
      exact ⟨hl.begins, hl.one, l.key, hl.key.bareKey? (Nat.zero_le _), l.text, hl.treated⟩
  have hroot : ∀ last, linesOutline name tag lines ≠ leaf last := by
    simp [linesOutline, ofControl]
  rw [← write_linesOutline, escape_write hroot (filled_ofControl _ _ _) hrows,
    textRelabel_linesOutline htag hlines]

theorem worded_quotedOutline (hname : IsName name) (htag : IsVersioned tag)
    (hlines : ∀ l ∈ lines, l.Sound) : (quotedOutline name tag lines).Worded :=
  worded_ofControl hname.lettered.isPlainText
    (Word.sound_json fun c hc => (chars_of_isVersioned htag c hc).1)
    (List.forall_mem_map.2 fun l hl =>
      ⟨(hlines l hl).key.isPlainText, Word.sound_json (hlines l hl).safe⟩)

/-! ## What they say -/

/-- What lines say: each key what it says by itself, with the text behind it. -/
def entriesSaid (lines : List QuotedLine) : List (PlainValue × PlainValue) :=
  lines.map fun l => (saidKey l.key, .text l.text .quoted)

/-- What the properties of such a control say: nothing without lines. -/
def propertiesSaid (lines : List QuotedLine) : PlainValue :=
  if lines.isEmpty then .null else .map (entriesSaid lines)

/-- What such a document says. -/
def linesTree (name tag : Text) (lines : List QuotedLine) : PlainValue :=
  .list [.map [(.text name .plain, .map [(.text typeKey .plain, .text tag .quoted),
    (.text propertiesKey .plain, propertiesSaid lines)])]]

theorem tree?_ofJson (t : Text) :
    (LineEnd.word (.ofJson t)).tree? = some (.text t .quoted : PlainValue) := by
  rw [LineEnd.tree?_quoted (by simp), Word.value_ofJson]

theorem entryMeanings?_lines (hkeys : ∀ l ∈ lines, IsLettered l.key) :
    entryMeanings? (lines.map fun l => (.plain l.key, leaf (.word (.ofJson l.text))))
      = some (entriesSaid lines) := by
  induction lines with
  | nil => rfl
  | cons l rest ih =>
    rw [List.map_cons, entryMeanings?, Word.tree?_plain (hkeys l List.mem_cons_self),
      meaning?, tree?_ofJson, ih fun g hg => hkeys g (List.mem_cons_of_mem _ hg)]
    rfl

theorem meaning?_quotedOutline (hname : IsName name) (hkeys : ∀ l ∈ lines, IsLettered l.key) :
    (quotedOutline name tag lines).meaning? = some (linesTree name tag lines) := by
  have hname : (Word.plain name).tree? = some (.text name .plain : PlainValue) :=
    Word.tree?_eq_keyTree fun _ => ofScalar_of_isWord hname.toIsWord .reduced
  have htype : (Word.plain typeKey).tree? = some (.text typeKey .plain : PlainValue) :=
    Word.tree?_eq_keyTree fun _ => by decide +kernel
  have hproperties : (Word.plain propertiesKey).tree?
      = some (.text propertiesKey .plain : PlainValue) :=
    Word.tree?_eq_keyTree fun _ => by decide +kernel
  have hlines : (ofLines (lines.map fun l => (l.key, .word (.ofJson l.text)))).meaning?
      = some (propertiesSaid lines) := by
    cases lines with
    | nil => rfl
    | cons l rest =>
      have hentries := entryMeanings?_lines hkeys
      have hmap : ofLines ((l :: rest).map fun l => (l.key, .word (.ofJson l.text)))
          = map (((l :: rest).map fun l => (l.key, .word (.ofJson l.text))).map
            fun l => (.plain l.1, leaf l.2)) := rfl
      rw [hmap, List.map_map, meaning?]
      exact congrArg (Option.map Yaml.Tree.map) hentries
  simp only [quotedOutline, ofControl, meaning?, itemMeanings?, entryMeanings?, hname, htype,
    hproperties, hlines, tree?_ofJson]
  rfl

/-- Whether the token reader finds all keys, and no two of them say the same. -/
def HasReadableKeys (keys : List Text) : Prop :=
  (∀ k ∈ keys, k.length ≤ Lexer.keyReach) ∧ (keys.map Word.plain).Pairwise Word.Differ

/-- Different short words that are shown as they are can be read. -/
theorem hasReadableKeys {keys : List Text} (hkeys : ∀ k ∈ keys, IsLettered k)
    (hdistinct : keys.Nodup) (h : ∀ k ∈ keys, k.length ≤ Lexer.keyReach ∧ shownKey k = k) :
    HasReadableKeys keys :=
  ⟨fun k hk => (h k hk).1, differ_of_shownKey hkeys hdistinct fun k hk => (h k hk).2⟩

/-- The text is read as what it says, just if its keys can be read. -/
theorem treeOf_linesText (hname : IsName name) (htag : IsVersioned tag)
    (hlines : ∀ l ∈ lines, l.Sound) :
    GivesIff (HasReadableKeys (lines.map (·.key))) (treeOf (linesText name tag lines))
      (· = linesTree name tag lines) := by
  have hreadable : (quotedOutline name tag lines).Short ∧ (quotedOutline name tag lines).Distinct
      ↔ HasReadableKeys (lines.map (·.key)) := by
    rw [quotedOutline, short_ofControl (hname.short.trans (by decide)), distinct_ofControl,
      List.map_map, List.forall_mem_map, HasReadableKeys, List.map_map, List.forall_mem_map]
    rfl
  have hread : GivesIff (HasReadableKeys (lines.map (·.key)))
      (Yaml.Tree.ofText .reduced ((quotedOutline name tag lines).write .start 0))
      (· = linesTree name tag lines) :=
    (ofText_list_iff (worded_quotedOutline hname htag hlines)
      (meaning?_quotedOutline hname fun l hl => (hlines l hl).key) (by simp)).congr hreadable
  rw [treeOf, escape_linesText hname htag hlines]
  dsimp only
  rcases hread with ⟨hp, tree, htree, rfl⟩ | ⟨hp, e, he⟩
  · rw [htree]
    exact .inl ⟨hp, _, rfl, rfl⟩
  · rw [he]
    cases e <;> exact .inr ⟨hp, _, rfl⟩

/-- The property that a line says, under the key that is shown. -/
def QuotedLine.entry (l : QuotedLine) : Text × Property :=
  (shownKey l.key, Property.classifyText l.text .quoted)

theorem classifyEntries_lines (path : Text) (lines : List QuotedLine) :
    Property.classifyEntries path (entriesSaid lines) = .ok (lines.map QuotedLine.entry) := by
  induction lines with
  | nil => rfl
  | cons l rest ih =>
    rw [entriesSaid, List.map_cons, Property.classifyEntries, keyName_saidKey, ← entriesSaid, ih]
    rfl

/-- The document with the properties under the keys that are shown: of two keys that are shown as
the same the first keeps its place, and the last its value. -/
def shownLines (name tag : Text) (lines : List QuotedLine) : Document :=
  .single name ⟨tag, Table.ofEntries (lines.map QuotedLine.entry), [], [typeKey, propertiesKey]⟩
    true

theorem ofTree_linesTree (htag : IsVersioned tag) :
    ofTree (linesTree name tag lines) = .ok (shownLines name tag lines) := by
  have hproperties : Control.propertiesOf name (some (propertiesSaid lines))
      = .ok (Table.ofEntries (lines.map QuotedLine.entry)) := by
    cases lines with
    | nil => rfl
    | cons l rest =>
      show (Property.classifyEntries name (entriesSaid (l :: rest))).map _ = _
      rw [classifyEntries_lines]
      rfl
  have hentries : Control.ofEntries name [(.text typeKey .plain, .text tag .quoted),
      (.text propertiesKey .plain, propertiesSaid lines)] = .ok ⟨tag,
        Table.ofEntries (lines.map QuotedLine.entry), [], [typeKey, propertiesKey]⟩ := by
    have htype : Control.typeOf name (.text tag .quoted) = .ok tag := by
      rw [Control.typeOf, (head_of_isVersioned htag).2.2]
      rfl
    have hlookup : Yaml.Tree.lookup [(.text typeKey .plain, .text tag .quoted),
        (.text propertiesKey .plain, propertiesSaid lines)] propertiesKey
          = some (propertiesSaid lines) := by
      simp [Yaml.Tree.lookup, (by decide +kernel : typeKey ≠ propertiesKey)]
    have hextras : Control.extrasOf [(.text typeKey .plain, .text tag .quoted),
        (.text propertiesKey .plain, propertiesSaid lines)] = .ok [] := by
      simp [Control.extrasOf, Control.isOwnKey]
    rw [Control.ofEntries, Yaml.Tree.lookup, if_pos rfl]
    simp only [htype, hlookup, hproperties, hextras, bind, Except.bind,
      unwrapped_of_isVersioned htag]
    rfl
  have hname : keyName (.text name .plain) = .ok name := rfl
  simp only [linesTree, ofTree, declarations, ofDeclarations, controlsOf, Control.ofTree, hname,
    hentries, bind, Except.bind]
  rfl

/-- A control of lines with quoted values is read just if its keys can be, with the properties under
the keys that are shown. -/
theorem parse_linesText (hname : IsName name) (htag : IsVersioned tag)
    (hlines : ∀ l ∈ lines, l.Sound) :
    GivesIff (HasReadableKeys (lines.map (·.key))) (parse (linesText name tag lines))
      (· = shownLines name tag lines) := by
  refine ((treeOf_linesText hname htag hlines).bind (q := True) ?_).congr (and_iff_left trivial)
  rintro tree rfl
  exact .of_ok (ofTree_linesTree htag) rfl

end Document

end ModernControls
