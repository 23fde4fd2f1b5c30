import ModernControls.Proofs.Control.Ordinary

/-!
# Controls of formula lines

A control whose properties are formulas on one line each, written out: a name, a type with a version,
and a line for each formula. A formula is any text on one line that does not begin with the formula
mark and can be quoted; no character of it is trimmed, folded or taken for something else. Such a
text is read as what it says, and it is the text that is written again.

Results:
- `keepsTree_versioned`: the tree of a control with a type with a version and properties stays;
- `keepsTree_sheet`: the tree of what such a text says stays;
- `restoredText_sheet`: its restored outline is the text;
- `parse_render_formulaText`: the text is read as what it says and written again.
-/
namespace ModernControls

open Yaml Layout Formula

/-! ## Formulas and types -/

/-- Whether a formula stands on a line and can be quoted there. -/
structure Formula.IsLine (f : Text) : Prop where
  mark : f.head? ≠ some formulaMark
  chars : ∀ c ∈ f, isSafe c = true ∧ c ≠ '\n' ∧ c ≠ '\r'

theorem Formula.isLine_iff {f : Text} : Formula.IsLine f ↔
    f.head? ≠ some formulaMark ∧ ∀ c ∈ f, isSafe c = true ∧ c ≠ '\n' ∧ c ≠ '\r' :=
  ⟨fun h => ⟨h.mark, h.chars⟩, fun h => ⟨h.1, h.2⟩⟩

instance : DecidablePred Formula.IsLine := fun _ => decidable_of_iff' _ Formula.isLine_iff

namespace Formula.IsLine

variable {f : Text}

theorem keeps (h : IsLine f) : Keeps f where
  mark := h.mark
  line _ c hc := ⟨(h.chars c hc).1, (h.chars c hc).2.2⟩
  block hn := absurd rfl (h.chars _ hn).2.1

theorem no_feed (h : IsLine f) : '\n' ∉ f := fun hn => (h.chars _ hn).2.1 rfl

end Formula.IsLine

/-- Whether a text is a type with a version: a name without blanks and quotation marks that begins
neither a formula nor a comment, an at sign, and digits and points. -/
def IsVersioned (tag : Text) : Prop :=
  ∃ name version, tag = name ++ '@' :: version
    ∧ (name ≠ [] ∧ name.head? ≠ some formulaSign ∧ name.head? ≠ some '#')
    ∧ (∀ c ∈ name, isSafe c = true ∧ isBlank c = false ∧ c ≠ '@' ∧ c ≠ '"' ∧ c ≠ '\'')
    ∧ version ≠ [] ∧ ∀ c ∈ version, isDecimalDigit c = true ∨ c = '.'

/-- A digit of any script can be quoted. -/
theorem isSafe_of_isDecimalDigit {c : Char} (h : isDecimalDigit c = true) : isSafe c = true := by
  have hrange : c.toNat ≤ 0x39 ∨ (0x660 ≤ c.toNat
      ∧ ∃ z ∈ scriptZeros, z ≤ c.toNat ∧ c.toNat < z + 10) := by
    rw [isDecimalDigit, digitValue?] at h
    split at h
    · split at h
      · next hd => exact .inl hd.2
      · cases h
    · next hge =>
      rw [Option.isSome_map, List.find?_isSome] at h
      obtain ⟨z, hz, hzc⟩ := h
      exact .inr ⟨by omega, z, hz, by simpa using hzc⟩
  have hfar : ∀ z ∈ scriptZeros, z + 10 ≤ 0x2028 ∨ (0x2029 < z ∧ z + 10 ≤ 0xFFFE) ∨ 0xFFFF < z := by
    decide
  simp only [isSafe, Bool.and_eq_true, Bool.not_eq_true', Bool.and_eq_false_iff,
    decide_eq_false_iff_not, decide_eq_true_eq, ne_eq]
  rcases hrange with hlow | ⟨hge, z, hz, h1, h2⟩
  · omega
  · have := hfar z hz
    omega

section Versioned

variable {tag : Text}

theorem isVersionedType_of_isVersioned (h : IsVersioned tag) : isVersionedType tag = true := by
  obtain ⟨name, version, rfl, ⟨hne, -⟩, hname, hv, hversion⟩ := h
  have hcut : Text.cut '@' (name ++ '@' :: version) = (name, some version) :=
    Text.cut_append (fun hm => (hname _ hm).2.2.1 rfl) version
  rw [isVersionedType, hcut]
  simp only [Bool.and_eq_true, Bool.not_eq_true', List.isEmpty_eq_false_iff, List.all_eq_true,
    decide_eq_true_eq, Bool.or_eq_true, ne_eq]
  exact ⟨⟨⟨hne, fun c hc => ⟨⟨(hname c hc).2.1, (hname c hc).2.2.2.1⟩, (hname c hc).2.2.2.2⟩⟩, hv⟩,
    hversion⟩

/-- The characters of a type with a version. -/
theorem chars_of_isVersioned (h : IsVersioned tag) :
    ∀ c ∈ tag, isSafe c = true ∧ isBlank c = false ∧ c ≠ '"' ∧ c ≠ '\'' := by
  obtain ⟨name, version, rfl, -, hname, -, hversion⟩ := h
  intro c hc
  rcases List.mem_append.1 hc with hc | hc
  · obtain ⟨hsafe, hblank, -, hquotes⟩ := hname c hc
    exact ⟨hsafe, hblank, hquotes⟩
  · rcases List.mem_cons.1 hc with rfl | hc
    · decide
    · rcases hversion c hc with hd | rfl
      · exact ⟨isSafe_of_isDecimalDigit hd, not_isBlank_of_isDecimalDigit hd,
          ne_quote_of_isDecimalDigit hd⟩
      · decide

/-- A type with a version can stand by itself. -/
theorem unwrapped_of_isVersioned (h : IsVersioned tag) : TypeToken.unwrapped tag = tag :=
  TypeToken.unwrapped_eq fun c hc => (chars_of_isVersioned h c hc).2

theorem head_of_isVersioned (h : IsVersioned tag) :
    tag.head? ≠ some formulaSign ∧ tag.head? ≠ some '#' ∧ tag.isAllBlank = false := by
  have hblank := chars_of_isVersioned h
  obtain ⟨name, version, rfl, ⟨hne, hsign, hhash⟩, -⟩ := h
  obtain ⟨c, r, rfl⟩ := List.exists_cons_of_ne_nil hne
  have hc := (hblank c (by simp)).2.1
  exact ⟨hsign, hhash, by simp [Text.isAllBlank, hc]⟩

/-- A type with a version is quoted when it is written. -/
theorem versionSign_mem (h : IsVersioned tag) : TypeToken.versionSign ∈ tag := by
  obtain ⟨name, version, rfl, -⟩ := h
  exact List.mem_append_right _ List.mem_cons_self

theorem lastsType_of_isVersioned (h : IsVersioned tag) : LastsType tag where
  unbroken hn := absurd (versionSign_mem h) hn
  sign hn := absurd (versionSign_mem h) hn
  version _ := ⟨fun c hc => (chars_of_isVersioned h c hc).1, (head_of_isVersioned h).1,
    (head_of_isVersioned h).2.1⟩

end Versioned

/-! ## The document and its text -/

/-- A control whose properties are formulas. -/
def Control.ofFormulas (tag : Text) (formulas : List (Text × Text)) : Control :=
  ⟨tag, formulas.map fun f => (f.1, .formula f.2), [], [typeKey, propertiesKey]⟩

namespace Document

/-- A list with a control whose properties are formulas. -/
def ofFormulas (name tag : Text) (formulas : List (Text × Text)) : Document :=
  .single name (Control.ofFormulas tag formulas) true

/-- The line of a formula. -/
def formulaLine (f : Text × Text) : Text :=
  Text.spaces 6 ++ f.1 ++ [':', ' ', '='] ++ f.2 ++ ['\n']

/-- The text of a control whose properties are formulas. -/
def formulaText (name tag : Text) (formulas : List (Text × Text)) : Text :=
  ['-', ' '] ++ name ++ [':', '\n']
    ++ Text.spaces 4 ++ typeKey ++ [':', ' '] ++ tag ++ ['\n']
    ++ Text.spaces 4 ++ propertiesKey ++ [':', '\n']
    ++ formulas.flatMap formulaLine

end Document

variable {name tag : Text} {formulas : List (Text × Text)}

namespace Control

theorem wellFormed_ofFormulas (htag : IsVersioned tag) (hdistinct : (formulas.map (·.1)).Nodup) :
    (ofFormulas tag formulas).WellFormed := by
  have hvalues : ∀ fs : List (Text × Text),
      Property.WellFormedEntries (fs.map fun f => (f.1, .formula f.2)) := by
    intro fs
    induction fs with
    | nil => trivial
    | cons f fs ih => exact ⟨trivial, ih⟩
  refine wellFormed_of_keys rfl rfl (unwrapped_of_isVersioned htag) (head_of_isVersioned htag).2.2
    ?_ (hvalues formulas)
  simpa [ofFormulas, Function.comp_def] using hdistinct

theorem freeOfMarks_ofFormulas (hlines : ∀ f ∈ formulas, IsLine f.2) :
    (ofFormulas tag formulas).FreeOfMarks := by
  have hvalues : ∀ fs : List (Text × Text), (∀ f ∈ fs, IsLine f.2) →
      Property.UnmarkedEntries (fs.map fun f => (f.1, .formula f.2)) := by
    intro fs
    induction fs with
    | nil => exact fun _ => trivial
    | cons f fs ih =>
      exact fun hl => ⟨(hl f List.mem_cons_self).mark, ih fun g hg => hl g (List.mem_cons_of_mem _ hg)⟩
  exact ⟨hvalues formulas hlines, fun e he => nomatch he⟩

/-- A type with a version is written between quotation marks first. -/
theorem treeOfType_of_isVersioned (htag : IsVersioned tag) :
    treeOfType tag = .text tag (.forced .double) := by
  have hat : tag.contains TypeToken.versionSign = true := by simpa using versionSign_mem htag
  rw [treeOfType, hat]
  rfl

/-- The tree of a control with a type with a version and properties alone. -/
theorem toTree_of_isVersioned {c : Control} (hw : c.WellFormed) (htag : IsVersioned c.typeTag)
    (hkeys : c.keyOrder = [typeKey, propertiesKey]) :
    c.toTree = .map [(.text typeKey .plain, .text c.typeTag (.forced .double)),
      (.text propertiesKey .plain, .map (Property.toTreeEntries c.properties))] := by
  have hne : propertiesKey ≠ typeKey := by decide +kernel
  have htype : c.part typeKey = .text c.typeTag (.forced .double) := by
    rw [part, if_pos rfl]
    exact treeOfType_of_isVersioned htag
  have hproperties : c.part propertiesKey = .map (Property.toTreeEntries c.properties) := by
    rw [part, if_neg hne, if_pos rfl]
  rw [toTree_eq hw, hkeys, ← htype, ← hproperties]
  rfl

end Control

namespace Document

theorem wellFormed_ofFormulas (htag : IsVersioned tag) (hdistinct : (formulas.map (·.1)).Nodup) :
    (ofFormulas name tag formulas).WellFormed :=
  wellFormed_single (Control.wellFormed_ofFormulas htag hdistinct) name true

theorem freeOfMarks_ofFormulas (hlines : ∀ f ∈ formulas, IsLine f.2) :
    (ofFormulas name tag formulas).FreeOfMarks := by
  intro e he
  obtain rfl := List.mem_singleton.1 he
  exact Control.freeOfMarks_ofFormulas hlines

/-! ## The tree -/

/-- What a control with a type and properties alone is written as under its name. -/
def versioned (name tag : Text) (entries : List (Yaml.Tree Empty × Yaml.Tree Empty))
    (asSequence : Bool) : Yaml.Tree Empty :=
  let control : Yaml.Tree Empty × Yaml.Tree Empty :=
    (.text name .plain, .map [(.text typeKey .plain, .text tag (.forced .double)),
      (.text propertiesKey .plain, .map entries)])
  if asSequence then .list [.map [control]] else .map [control]

theorem keepsTree_versioned (hname : IsName name) (htag : IsVersioned tag)
    {entries : List (Yaml.Tree Empty × Yaml.Tree Empty)} (hentries : KeepsEntries entries)
    (hdistinct : (entries.map (·.1.keyText)).Nodup) (asSequence : Bool) :
    KeepsTree none (versioned name tag entries asSequence) := by
  have htype : KeepsTree (some typeKey) (.text tag (.forced .double) : PlainValue) :=
    Control.treeOfType_of_isVersioned htag ▸ keepsTree_type (lastsType_of_isVersioned htag)
      (unwrapped_of_isVersioned htag)
  have hdiffer : [typeKey, propertiesKey].Nodup := by decide +kernel
  have hcontrol : KeepsTree none (.map [(.text name .plain,
      .map [(.text typeKey .plain, .text tag (.forced .double)),
        (.text propertiesKey .plain, .map entries)])] : Yaml.Tree Empty) :=
    ⟨List.nodup_singleton _, ⟨name, rfl, keepsKey_of_isName hname⟩,
      ⟨hdiffer, ⟨typeKey, rfl, keepsKey_own List.mem_cons_self⟩, htype,
        ⟨propertiesKey, rfl, keepsKey_own (List.mem_cons_of_mem _ List.mem_cons_self)⟩,
        ⟨hdistinct, hentries⟩, trivial⟩, trivial⟩
  cases asSequence with
  | true => exact ⟨hcontrol, trivial⟩
  | false => exact hcontrol

/-- What the properties of such a control are written as. -/
def formulaEntries (formulas : List (Text × Text)) : List (Yaml.Tree Empty × Yaml.Tree Empty) :=
  formulas.map fun f => (.text f.1 .plain, .text (formulaMark :: f.2) (.forced .double))

/-- What such a document is written as. -/
def sheet (name tag : Text) (formulas : List (Text × Text)) : Yaml.Tree Empty :=
  .list [.map [(.text name .plain, .map [(.text typeKey .plain, .text tag (.forced .double)),
    (.text propertiesKey .plain, .map (formulaEntries formulas))])]]

theorem toTree_ofFormulas (htag : IsVersioned tag) (hdistinct : (formulas.map (·.1)).Nodup) :
    (ofFormulas name tag formulas).toTree = (sheet name tag formulas).weaken := by
  have hentries : ∀ (put : Empty → PlainValue) (fs : List (Text × Text)),
      Property.toTreeEntries (fs.map fun f => (f.1, .formula f.2))
        = Yaml.Tree.substituteEntries put (formulaEntries fs) := by
    intro put fs
    induction fs with
    | nil => rfl
    | cons f fs ih => exact congrArg (((.text f.1 .plain, _) : PlainValue × PlainValue) :: ·) ih
  show Yaml.Tree.list [.map [(_, (Control.ofFormulas tag formulas).toTree)]] = _
  rw [Control.toTree_of_isVersioned (Control.wellFormed_ofFormulas htag hdistinct) htag rfl,
    Control.ofFormulas, hentries]
  rfl

theorem keepsEntries_formulas (hkeys : ∀ f ∈ formulas, IsName f.1)
    (hlines : ∀ f ∈ formulas, IsLine f.2) : KeepsEntries (formulaEntries formulas) := by
  induction formulas with
  | nil => trivial
  | cons f fs ih =>
    exact ⟨⟨f.1, rfl, keepsKey_of_isName (hkeys f List.mem_cons_self)⟩,
      keepsTree_formula (hlines f List.mem_cons_self).keeps,
      ih (fun g hg => hkeys g (List.mem_cons_of_mem _ hg)) fun g hg =>
        hlines g (List.mem_cons_of_mem _ hg)⟩

theorem keepsTree_sheet (hname : IsName name) (htag : IsVersioned tag)
    (hkeys : ∀ f ∈ formulas, IsName f.1) (hdistinct : (formulas.map (·.1)).Nodup)
    (hlines : ∀ f ∈ formulas, IsLine f.2) : KeepsTree none (sheet name tag formulas) := by
  refine keepsTree_versioned hname htag (keepsEntries_formulas hkeys hlines) ?_ true
  simpa [formulaEntries, Function.comp_def, Yaml.Tree.keyText] using hdistinct

/-! ## The restored outline -/

/-- The end of the line of a formula behind a name: the formula is put back. -/
theorem restored_formula {h : Head} {key f : Text} (hb : h.bareKey? = some key) (hf : IsLine f) :
    LineEnd.restored h (.ofLeaf ⟨.str, formulaMark :: f, some .double⟩) = .formula f := by
  have hs := style_of_forced_double false .str (formulaMark :: f)
  have hword : LineEnd.ofLeaf ⟨.str, formulaMark :: f, some .double⟩
      = .word (.ofLayout (formulaMark :: f)) := by
    rw [LineEnd.ofLeaf, if_neg (by simp), Word.ofLeaf, hs]
  have hfeed : (f.contains '\n') = false := by simpa using hf.no_feed
  rw [hword, Word.ofLayout, LineEnd.restored_of_some hb, ← Word.ofLayout, LineEnd.restoredWord,
    Word.value_ofLayout]
  dsimp only
  rw [if_pos rfl, if_neg hf.mark, LineEnd.ofFormula, hfeed]
  rfl

/-- The end of the line of a type with a version: the type is put back. -/
theorem restored_type {h : Head} (hb : h.bareKey? = some typeKey) (htag : IsVersioned tag) :
    LineEnd.restored h (.ofLeaf ⟨.str, tag, some .double⟩) = .word (.plain tag) := by
  have hversion := isVersionedType_of_isVersioned htag
  have hmark := head_ne_mark_of_isVersionedType hversion
  have hfeed : withoutFeed tag = tag := if_neg fun hl =>
    absurd (chars_of_isVersioned htag _ (List.mem_of_getLast? hl)).2.1 (by decide)
  have hs := style_of_forced_double false .str tag
  have hword : LineEnd.ofLeaf ⟨.str, tag, some .double⟩ = .word (.ofLayout tag) := by
    rw [LineEnd.ofLeaf, if_neg (by simp [hs]), Word.ofLeaf, hs]
  rw [hword, Word.ofLayout, LineEnd.restored_of_some hb, ← Word.ofLayout, LineEnd.restoredWord,
    Word.value_ofLayout]
  cases tag with
  | nil => exact absurd (versionSign_mem htag) List.not_mem_nil
  | cons c r =>
    dsimp only
    rw [if_neg (by simpa using hmark), hfeed, if_pos ⟨rfl, hversion⟩]

/-- The lines of the formulas are those of the restored entries. -/
theorem write_formulaEntries {fs : List (Text × Text)} (hk : ∀ f ∈ fs, IsName f.1)
    (hl : ∀ f ∈ fs, IsLine f.2) :
    Outline.writeEntries (Text.spaces 6) 6 (Outline.relabelEntries LineEnd.restored 6 0
      (Outline.ofEntries (formulaEntries fs))) = fs.flatMap formulaLine := by
  induction fs with
  | nil => rfl
  | cons f fs ih =>
    obtain ⟨k, e⟩ := f
    have hkey := hk _ List.mem_cons_self
    have hrow : (Outline.ofTree (.text (formulaMark :: e) (.forced .double))).relabel LineEnd.restored
        ⟨6, 0, some (.plain k)⟩ = .leaf (.formula e) :=
      congrArg Outline.leaf (restored_formula (hkey.lettered.bareKey? (Nat.zero_le _))
        (hl _ List.mem_cons_self))
    have hrest := ih (fun g hg => hk g (List.mem_cons_of_mem _ hg)) fun g hg =>
      hl g (List.mem_cons_of_mem _ hg)
    rw [formulaEntries, List.map_cons, ← formulaEntries, ofEntries_cons, keyWord_of_isName hkey,
      Outline.relabelEntries, hrow, Outline.writeEntries]
    show _ ++ Outline.writeEntries (Text.spaces 6) 6 (Outline.relabelEntries LineEnd.restored 6 0
      (Outline.ofEntries (formulaEntries fs))) = _
    rw [hrest]
    simp [Outline.write, LineEnd.write, Word.written, formulaLine]

/-- The outline of such a document after formulas have been put back. -/
theorem textRelabel_sheet (hname : IsName name) (hne : formulas ≠ []) :
    (Outline.ofTree (sheet name tag formulas)).textRelabel LineEnd.restored
      = .list [.map [(.plain name, .map [
          (.plain typeKey, .leaf (LineEnd.restored ⟨4, 0, some (.plain typeKey)⟩
            (.ofLeaf ⟨.str, tag, some .double⟩))),
          (.plain propertiesKey, .map (Outline.relabelEntries LineEnd.restored 6 0
            (Outline.ofEntries (formulaEntries formulas))))])]] := by
  have hkey : keyWord typeKey = .plain typeKey := keyWord_of_isName (by decide +kernel)
  have hproperties : keyWord propertiesKey = .plain propertiesKey :=
    keyWord_of_isName (by decide +kernel)
  obtain ⟨f, fs, rfl⟩ := List.exists_cons_of_ne_nil hne
  rw [← keyWord_of_isName hname, ← hkey, ← hproperties]
  rfl

/-- The text of such a document is what its lines say. -/
theorem restoredText_sheet (hname : IsName name) (htag : IsVersioned tag) (hne : formulas ≠ [])
    (hkeys : ∀ f ∈ formulas, IsName f.1) (hlines : ∀ f ∈ formulas, IsLine f.2) :
    restoredText (sheet name tag formulas) = formulaText name tag formulas := by
  have htype := restored_type (h := ⟨4, 0, some (.plain typeKey)⟩)
    ((by decide +kernel : IsName typeKey).lettered.bareKey? (Nat.zero_le _)) htag
  have hentries : Outline.relabelEntries LineEnd.restored 6 0
      (Outline.ofEntries (formulaEntries formulas)) ≠ [] := by
    obtain ⟨f, fs, rfl⟩ := List.exists_cons_of_ne_nil hne
    exact List.cons_ne_nil _ _
  have hbelow : (Outline.map (Outline.relabelEntries LineEnd.restored 6 0
      (Outline.ofEntries (formulaEntries formulas)))).write .value 6
        = '\n' :: formulas.flatMap formulaLine := by
    rw [← write_formulaEntries hkeys hlines]
    exact (Outline.append_writeEntries ['\n'] (Text.spaces 6) 6 hentries).symm
  rw [restoredText, textRelabel_sheet hname hne, htype]
  simp only [Outline.write, Outline.writeItems, Outline.writeEntries, Layout.step,
    Nat.reduceAdd] at hbelow ⊢
  rw [hbelow]
  simp [LineEnd.write, Word.written, Layout.Place.lead, formulaText]

/-- A control of formula lines is read as what its lines say, and it is written as these lines
again. -/
theorem parse_render_formulaText (hname : IsName name) (htag : IsVersioned tag)
    (hne : formulas ≠ []) (hkeys : ∀ f ∈ formulas, IsName f.1)
    (hdistinct : (formulas.map (·.1)).Nodup) (hlines : ∀ f ∈ formulas, IsLine f.2) :
    parse (formulaText name tag formulas) = .ok (ofFormulas name tag formulas)
      ∧ render (ofFormulas name tag formulas) = .ok (formulaText name tag formulas) := by
  have h := parse_render_of_weaken (wellFormed_ofFormulas htag hdistinct)
    (freeOfMarks_ofFormulas hlines) (toTree_ofFormulas htag hdistinct)
    (keepsTree_sheet hname htag hkeys hdistinct hlines)
  rw [restoredText_sheet hname htag hne hkeys hlines] at h
  exact ⟨h.2, h.1⟩

/-- Formulas with blanks at both ends, quotation marks, what looks like a comment, a block or an
escape, characters of other planes, and nothing at all. -/
def oddFormulas : List (Text × Text) :=
  [("Text".toList, " \"a\" & 'b' # c: \x7b\\n\x7d  ".toList), ("Control".toList, "|-".toList),
    ("Visible".toList, []), ("On_Select".toList, "\t😀 = \\U0001F600\x1E".toList)]

theorem parse_render_oddFormulas :
    (IsName "Button_1".toList ∧ IsVersioned "Classic/Button@2.2.0".toList ∧ oddFormulas ≠ []
      ∧ (∀ f ∈ oddFormulas, IsName f.1) ∧ (oddFormulas.map (·.1)).Nodup
      ∧ ∀ f ∈ oddFormulas, IsLine f.2)
      ∧ parse (formulaText "Button_1".toList "Classic/Button@2.2.0".toList oddFormulas)
          = .ok (ofFormulas "Button_1".toList "Classic/Button@2.2.0".toList oddFormulas)
      ∧ render (ofFormulas "Button_1".toList "Classic/Button@2.2.0".toList oddFormulas)
          = .ok (formulaText "Button_1".toList "Classic/Button@2.2.0".toList oddFormulas) := by
  have hname : IsName "Button_1".toList := by decide +kernel
  have htag : IsVersioned "Classic/Button@2.2.0".toList :=
    ⟨"Classic/Button".toList, "2.2.0".toList, by decide +kernel, by decide +kernel, by decide +kernel,
      by decide +kernel, by decide +kernel⟩
  have hne : oddFormulas ≠ [] := List.cons_ne_nil _ _
  have hkeys : ∀ f ∈ oddFormulas, IsName f.1 := by decide +kernel
  have hdistinct : (oddFormulas.map (·.1)).Nodup := by decide +kernel
  have hlines : ∀ f ∈ oddFormulas, IsLine f.2 := by decide +kernel
  exact ⟨⟨hname, htag, hne, hkeys, hdistinct, hlines⟩,
    parse_render_formulaText hname htag hne hkeys hdistinct hlines⟩

end Document

end ModernControls
