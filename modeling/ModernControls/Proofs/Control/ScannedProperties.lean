import ModernControls.Proofs.Control.Bare
import ModernControls.Proofs.Control.Formulas
import ModernControls.Proofs.Control.ScannedLines

/-!
# Scanning written documents

The scan of properties never reads a text as a whole, and it agrees with the document that the text
was written from. In a document with one control the properties are the last section: each begins
on a line of its own at one level, and everything else that belongs to it, the entries of an object
or the lines of a formula, stands further to the right. Truth values, integers and formulas on one
line are scanned as what they are. Formulas of several lines, objects and empty values are scanned
as nothing, whatever is in them.

There is one condition, and it cannot be done without: an integer must not be longer than integers
may be written.

Results:
- `scanValue_lineEnd`: what a value on the line of its key is scanned as;
- `rows_of_weaken`: the lines of a value are one with its key and others below it;
- `scan_render_iff`: a document is scanned as its properties on lines of their own just if its
  integers may be written.
-/
namespace ModernControls

open Yaml Layout Formula

/-! ## Values -/

namespace Property

/-- Whether a value stands on the line of its key: a truth value, an integer or a formula on one
line. -/
def isOnLine : Property → Bool
  | .bool _ => true
  | .int _ => true
  | .formula e => !e.contains '\n'
  | _ => false

mutual

/-- Whether a value is nothing, a truth value, an integer, a formula that can be typed and does not
end with a blank if it is on one line, or an object with such values in it. -/
def IsScanned : Property → Prop
  | .empty => True
  | .bool _ => True
  | .int _ => True
  | .float _ => False
  | .formula e => IsTypedText e ∧ ('\n' ∉ e → ∀ c ∈ e.getLast?, isBlank c = false)
  | .string .. => False
  | .object entries => entries ≠ [] ∧ (entries.map (·.1)).Nodup ∧ AreScanned entries

/-- Whether all keys are names and all values are such values. -/
def AreScanned : List (Text × Property) → Prop
  | [] => True
  | (key, value) :: rest => IsName key ∧ IsScanned value ∧ AreScanned rest

end

/-- Which formulas are scanned, character by character. -/
theorem isScanned_formula_iff {e : Text} : (formula e).IsScanned
    ↔ IsTypedText e ∧ ('\n' ∈ e ∨ e.getLast?.any isBlank = false) := by
  have hend : (∀ c ∈ e.getLast?, isBlank c = false) ↔ e.getLast?.any isBlank = false := by
    simp [Option.any_eq_false]
  rw [IsScanned, hend, or_iff_not_imp_left]

mutual

theorem wellFormed_of_scanned : ∀ p : Property, p.IsScanned → p.WellFormed
  | .empty, _ => trivial
  | .bool _, _ => trivial
  | .int _, _ => trivial
  | .float _, h => h.elim
  | .formula _, _ => trivial
  | .string .., h => h.elim
  | .object entries, h => ⟨h.2.1, wellFormed_of_areScanned entries h.2.2⟩

theorem wellFormed_of_areScanned : ∀ entries : List (Text × Property), AreScanned entries →
    WellFormedEntries entries
  | [], _ => trivial
  | (_, value) :: rest, h =>
    ⟨wellFormed_of_scanned value h.2.1, wellFormed_of_areScanned rest h.2.2⟩

end

mutual

theorem lasts_of_scanned : ∀ (p : Property) {key : Option Text}, p.IsScanned →
    p.HasShortIntegers → p.Lasts key
  | .empty, _, _, _ => trivial
  | .bool _, _, _, _ => trivial
  | .int _, _, _, hs => hs
  | .float _, _, h, _ => h.elim
  | .formula _, _, h, _ => keeps_of_typed h.1
  | .string .., _, h, _ => h.elim
  | .object entries, _, h, hs => lasts_of_areScanned entries h.2.2 hs

theorem lasts_of_areScanned : ∀ entries : List (Text × Property), AreScanned entries →
    HasShortIntegersEntries entries → LastsEntries entries
  | [], _, _ => trivial
  | (_, value) :: rest, h, hs =>
    ⟨keepsKey_of_isName h.1, lasts_of_scanned value h.2.1 hs.1, lasts_of_areScanned rest h.2.2 hs.2⟩

end

/-- What stands behind the key of a value on its line. -/
def lineEnd : Property → LineEnd
  | .bool b => .word (.plain (if b then "true".toList else "false".toList))
  | .int n => .word (.plain (Text.ofInt n))
  | .formula e => .ofFormula e
  | _ => .nothing

theorem isOnLine_formula (e : Text) : (formula e).isOnLine = true ↔ '\n' ∉ e := by
  simp [isOnLine]

end Property

namespace Properties

open Property

/-! ## Lines of values -/

theorem isNumber_ofInt (n : Int) : isNumber (Text.ofInt n) = true := by
  obtain ⟨c, r, hc, hdigit, hdigits, -⟩ := exists_ofNat n.natAbs
  have htake : (c :: r).takeWhile isDecimalDigit = c :: r :=
    List.takeWhile_eq_self_iff.2 fun d hd => isDecimalDigit_of_isAsciiDigit
      ((List.mem_cons.1 hd).elim (fun he => he ▸ hdigit) (hdigits d))
  have hminus : c ≠ '-' := fun he => absurd (he ▸ hdigit) (by decide)
  rw [Text.ofInt, hc]
  split
  · rw [isNumber, htake, List.drop_length]
    rfl
  · rw [isNumber, htake, List.drop_length]
    · rfl
    · exact fun _ he => hminus (List.cons.inj he).1

/-- An integer is scanned as what it is. -/
theorem scanValue_ofInt {n : Int} (hn : isLongInteger n = false) :
    scanValue (Text.ofInt n) = .ok (some (.int n)) := by
  have hpoint : '.' ∉ Text.ofInt n := fun hm =>
    forall_ofInt (P := fun c => c ≠ '.') (by decide) (by decide) n '.' hm rfl
  have hnumber : numberOf (Text.ofInt n) = .ok (.int n) := by
    rw [numberOf, if_neg (by simpa using hpoint), integer?_ofInt hn]
  have hnum := isNumber_ofInt n
  obtain ⟨c, r, hc, hd⟩ := ofInt_head n
  rw [hc] at hnumber hnum ⊢
  have hne : ∀ d, d ≠ '-' → isAsciiDigit d = false → c ≠ d := by
    rintro d hm hf rfl
    rcases hd with rfl | hd
    · exact hm rfl
    · rw [hf] at hd
      cases hd
  have htrue : c :: r ≠ "true".toList := fun he =>
    hne 't' (by decide) (by decide) (List.cons.inj he).1
  have hfalse : c :: r ≠ "false".toList := fun he =>
    hne 'f' (by decide) (by decide) (List.cons.inj he).1
  rw [scanValue, if_neg (hne formulaSign (by decide) (by decide)), if_neg htrue, if_neg hfalse,
    if_pos hnum, hnumber]
  rfl

/-- A formula on one line is scanned as what it is. -/
theorem scanValue_formula (e : Text) : scanValue (formulaSign :: e) = .ok (some (.formula e)) := by
  rw [scanValue, if_pos rfl]

/-- What stands behind a space and does not end with a blank is trimmed to itself. -/
theorem trim_space {c : Char} (hc : isBlank c = false) {t : Text}
    (ht : ∀ d ∈ (c :: t).getLast?, isBlank d = false) :
    Text.trim (' ' :: c :: t) = c :: t ∧ ∀ d ∈ (' ' :: c :: t).getLast?, isBlank d = false :=
  ⟨trim_spaces 1 hc ht, fun d hd => ht d (by rwa [List.getLast?_cons_cons] at hd)⟩

/-- A value on the line of its key is scanned as what it is, and any other value as nothing. -/
theorem scanValue_lineEnd {p : Property} (hp : p.IsScanned) (hs : p.HasShortIntegers) :
    scanValue p.lineEnd.first.trim = .ok (if p.isOnLine then some p else none)
      ∧ ∀ c ∈ p.lineEnd.first.getLast?, isBlank c = false := by
  cases p with
  | empty => exact ⟨rfl, by simp [lineEnd, LineEnd.first]⟩
  | bool b =>
    refine ⟨by cases b <;> rfl, fun c hc => ?_⟩
    obtain rfl : 'e' = c := by cases b <;> exact Option.some.inj hc
    decide
  | int n =>
    have hblank := forall_ofInt (P := fun c => isBlank c = false) (by decide) (by decide) n
    have hvalue := scanValue_ofInt hs
    have hfirst : (Property.int n).lineEnd.first = ' ' :: Text.ofInt n := rfl
    obtain ⟨c, r, hc, -⟩ := ofInt_head n
    rw [hc] at hblank hvalue hfirst
    obtain ⟨htrim, hlast⟩ := trim_space (hblank c List.mem_cons_self) (t := r) fun d hd =>
      hblank d (List.mem_of_getLast? hd)
    rw [hfirst, htrim, hvalue]
    exact ⟨rfl, hlast⟩
  | float x => exact hp.elim
  | formula e =>
    by_cases hfeed : '\n' ∈ e
    · obtain ⟨keeps, l, ls, hblock, -⟩ := LineEnd.ofFormula_block hfeed
      have hline := Bool.eq_false_iff.2 fun h => (isOnLine_formula e).1 h hfeed
      have hfirst : (Property.formula e).lineEnd.first
          = [' ', '|'] ++ [Scalar.blockSign keeps] := by
        rw [lineEnd, hblock]
        rfl
      rw [hfirst, hline]
      exact ⟨by cases keeps <;> rfl,
        Text.forall_getLast_append (by cases keeps <;> decide) (by simp) _⟩
    · have hend : ∀ d ∈ (formulaSign :: e).getLast?, isBlank d = false :=
        Text.forall_getLast_append (by decide) (hp.2 hfeed) []
      obtain ⟨htrim, hlast⟩ := trim_space (c := formulaSign) (by decide) hend
      have hfirst : (Property.formula e).lineEnd.first = ' ' :: formulaSign :: e := by
        rw [lineEnd, LineEnd.ofFormula_line hfeed]
        rfl
      rw [hfirst, htrim, (isOnLine_formula e).2 hfeed, scanValue_formula]
      exact ⟨rfl, hlast⟩
  | string t form => exact hp.elim
  | object entries => exact ⟨rfl, by simp [lineEnd, LineEnd.first]⟩

end Properties

namespace Yaml

open Properties

variable {level : Nat}

/-- The lines of a block stand below its key. -/
theorem LineEnd.isBelow_below {indent : Nat} (h : level < indent) (last : LineEnd) :
    ∀ l ∈ last.below indent, IsBelow level l := by
  cases last with
  | literal keeps lines =>
    intro l hl
    obtain ⟨x, -, rfl⟩ := List.mem_map.1 hl
    split
    · exact .inl rfl
    · exact .inr (h.trans_le (le_indentOf_spaces indent x))
  | _ => exact fun l hl => nomatch hl

/-- The lines of a row stand below a level if the row begins to the right of it. -/
theorem Row.isBelow_lines {r : Row} (h : level < r.head.margin) :
    ∀ l ∈ r.lines, IsBelow level l := by
  intro l hl
  rcases List.mem_cons.1 hl with rfl | hl
  · rw [Head.text, Head.lead, List.append_assoc, List.append_assoc]
    exact .inr (h.trans_le (le_indentOf_spaces _ _))
  · refine LineEnd.isBelow_below ?_ r.last l hl
    rw [Head.column]
    omega

end Yaml

/-! ## Rows of values -/

namespace Property

/-- A plain scalar stands behind its key as it is. -/
theorem restored_scalar {l : Leaf} {source : PlainValue} (hl : LineEnd.PlainScalar l source)
    (h : Head) : LineEnd.restored h (.ofLeaf l) = .word (.plain l.text) := by
  rw [hl.ofLeaf_eq]
  exact LineEnd.restored_of_ne (by simp) h

/-- A value takes the line of its key, and what else belongs to it begins to the right of the
key. -/
theorem rows_of_weaken {p : Property} (hp : p.IsScanned) (hs : p.HasShortIntegers)
    {T : Yaml.Tree Empty} (hT : p.toTree = T.weaken) {key : Text} (hk : IsName key) (margin : Nat) :
    ∃ more, ((Outline.ofTree T).relabel LineEnd.restored ⟨margin, 0, some (.plain key)⟩).rows
        ⟨margin, 0, some (.plain key)⟩ = ⟨⟨margin, 0, some (.plain key)⟩, p.lineEnd⟩ :: more
      ∧ ∀ r ∈ more, margin + Layout.step ≤ r.head.margin := by
  have hbare : Head.bareKey? ⟨margin, 0, some (.plain key)⟩ = some key :=
    hk.lettered.bareKey? (Nat.zero_le 1)
  cases p with
  | empty =>
    cases T with
    | null => exact ⟨[], rfl, fun r hr => nomatch hr⟩
    | foreign value => exact value.elim
    | _ => cases hT
  | bool b =>
    cases T with
    | bool b' =>
      cases hT
      have hlast := restored_scalar (LineEnd.plainScalar_bool b) ⟨margin, 0, some (.plain key)⟩
      exact ⟨[], congrArg (fun last => [(⟨_, last⟩ : Row)]) hlast, fun r hr => nomatch hr⟩
    | foreign value => exact value.elim
    | _ => cases hT
  | int n =>
    cases T with
    | int n' =>
      cases hT
      have hlast := restored_scalar (LineEnd.plainScalar_int hs) ⟨margin, 0, some (.plain key)⟩
      exact ⟨[], congrArg (fun last => [(⟨_, last⟩ : Row)]) hlast, fun r hr => nomatch hr⟩
    | foreign value => exact value.elim
    | _ => cases hT
  | float x => exact hp.elim
  | formula e =>
    have hend : LineEnd.formulaEnd ⟨margin, 0, some (.plain key)⟩ e = .ofFormula e :=
      (LineEnd.formulaEnd_eq_iff _ e).2 ⟨by rw [hbare]; rfl, not_mark_of_typed hp.1⟩
    rw [relabel_formula hT, hend]
    exact ⟨[], rfl, fun r hr => nomatch hr⟩
  | string t form => exact hp.elim
  | object entries =>
    cases T with
    | map Ts =>
      cases Ts with
      | nil =>
        cases entries with
        | nil => exact absurd rfl hp.1
        | cons e rest => cases hT
      | cons e Ts => exact ⟨_, rfl, Outline.margin_le_entries _ _ _⟩
    | foreign value => exact value.elim
    | _ => cases hT

end Property

namespace Properties

open Property

variable {base level : Nat} {level? : Option Nat} {found : Properties}

/-- The lines of a value add the value if it stands on the line of its key. -/
theorem scanLines_value (hl : level?.getD level = level) (hb : base < level) {key : Text}
    (hk : IsName key) {p : Property} (hp : p.IsScanned) (hs : p.HasShortIntegers)
    (hnew : key ∉ found.keys) {more : List Row}
    (hmore : ∀ r ∈ more, level + Layout.step ≤ r.head.margin) (rest : List Text) :
    scanLines base level? found
        (List.flatMap Row.lines (⟨⟨level, 0, some (.plain key)⟩, p.lineEnd⟩ :: more) ++ rest)
      = scanLines base (some level) (found ++ [(key, p)].filter (·.2.isOnLine)) rest := by
  obtain ⟨hv, hlast⟩ := scanValue_lineEnd hp hs
  have hshown : ((if p.isOnLine then some p else none).map (key, ·)).toList
      = [(key, p)].filter (·.2.isOnLine) := by
    cases hline : p.isOnLine <;> simp [hline]
  have hright : level < level + Layout.step := by simp [Layout.step]
  have hbelow : ∀ l ∈ p.lineEnd.below (level + Layout.step) ++ more.flatMap Row.lines,
      IsBelow level l := by
    intro l hl
    rcases List.mem_append.1 hl with hl | hl
    · exact LineEnd.isBelow_below hright _ l hl
    · obtain ⟨r, hr, hm⟩ := List.mem_flatMap.1 hl
      exact Row.isBelow_lines (hright.trans_le (hmore r hr)) l hm
  have hlines : List.flatMap Row.lines (⟨⟨level, 0, some (.plain key)⟩, p.lineEnd⟩ :: more) ++ rest
      = (Text.spaces level ++ key ++ ':' :: p.lineEnd.first)
        :: ((p.lineEnd.below (level + Layout.step) ++ more.flatMap Row.lines) ++ rest) := by
    simp [Row.lines, Head.text, Head.lead, Head.mark, Head.column, Word.written]
  rw [hlines, scanLines_key hl hb hk hlast hv hnew, scanLines_below hb hbelow, hshown]

/-- The lines of properties are scanned as those of them that stand on lines of their own. -/
theorem scanLines_entries (hb : base < level) {entries : List (Text × Property)}
    (he : AreScanned entries) (hs : HasShortIntegersEntries entries)
    (hd : (entries.map (·.1)).Nodup) {Ts : List (Yaml.Tree Empty × Yaml.Tree Empty)}
    (hT : toTreeEntries entries = Yaml.Tree.substituteEntries nofun Ts)
    (hl : level?.getD level = level) (hnew : ∀ e ∈ entries, e.1 ∉ found.keys) :
    scanLines base level? found ((Outline.entryRows level 0 (Outline.relabelEntries
        LineEnd.restored level 0 (Outline.ofEntries Ts))).flatMap Row.lines ++ [[]])
      = .ok (found ++ entries.filter (·.2.isOnLine)) := by
  induction entries generalizing Ts level? found with
  | nil =>
    cases Ts with
    | nil => rw [List.filter_nil, List.append_nil]; rfl
    | cons e Ts => cases hT
  | cons entry rest ih =>
    obtain ⟨key, value⟩ := entry
    cases Ts with
    | nil => cases hT
    | cons e Ts =>
      obtain ⟨K, V⟩ := e
      obtain ⟨hentry, hrest⟩ := List.cons.inj hT
      obtain ⟨hK, hV⟩ := Prod.mk.inj hentry
      cases K with
      | text k form =>
        obtain ⟨rfl, rfl⟩ := Yaml.Tree.text.inj hK
        obtain ⟨hk, hvalue, he⟩ := he
        obtain ⟨hfresh, hd⟩ := List.nodup_cons.1 hd
        obtain ⟨more, hrows, hmore⟩ := rows_of_weaken hvalue hs.1 hV hk level
        have hnew' : ∀ e ∈ rest, e.1 ∉ (found ++ [(key, value)].filter (·.2.isOnLine)).keys := by
          intro e hm hkeys
          rw [Table.keys, List.map_append] at hkeys
          rcases List.mem_append.1 hkeys with hkeys | hkeys
          · exact hnew e (List.mem_cons_of_mem _ hm) hkeys
          · obtain ⟨e', he', hkey⟩ := List.mem_map.1 hkeys
            obtain rfl := List.mem_singleton.1 (List.mem_filter.1 he').1
            exact hfresh (List.mem_map.2 ⟨e, hm, hkey.symm⟩)
        rw [ofEntries_cons, keyWord_of_isName hk, Outline.relabelEntries, Outline.entryRows, hrows,
          List.flatMap_append, List.append_assoc,
          scanLines_value hl hb hk hvalue hs.1 (hnew _ List.mem_cons_self) hmore]
        have hstep : level + Layout.step * 0 = level := by simp
        rw [hstep, ih he hs.2 hd hrest rfl hnew', List.append_assoc, ← List.filter_append,
          List.singleton_append]
      | foreign value => exact value.elim
      | _ => cases hK

end Properties

/-! ## Documents -/

/-- Whether a control has a type with a version, properties that are scanned, at least one and none
of them twice, and nothing else. -/
structure Control.IsScanned (c : Control) : Prop where
  type : IsVersioned c.typeTag
  extras : c.extras = []
  keyOrder : c.keyOrder = [typeKey, propertiesKey]
  nonempty : c.properties ≠ []
  distinct : (c.properties.map (·.1)).Nodup
  properties : Property.AreScanned c.properties

namespace Control

variable {c : Control}

theorem wellFormed_of_scanned (h : c.IsScanned) : c.WellFormed :=
  wellFormed_of_keys h.keyOrder h.extras (unwrapped_of_isVersioned h.type)
    (head_of_isVersioned h.type).2.2 h.distinct (Property.wellFormed_of_areScanned _ h.properties)

end Control

namespace Document

variable {name tag : Text} {entries : List (Yaml.Tree Empty × Yaml.Tree Empty)}

/-- How far the keys of the only control in a document are indented. -/
def keyMargin (asSequence : Bool) : Nat := if asSequence then 4 else 2

/-- The rows of a control with a type and properties alone: its name, its type, the key of the
properties, and the rows of these. -/
theorem entryRows_versioned (name tag : Text) (margin dashes : Nat) (os : List (Word × Outline)) :
    Outline.entryRows margin dashes [(.plain name,
      .map [(.plain typeKey, .leaf (.word (.plain tag))), (.plain propertiesKey, .map os)])]
      = ⟨⟨margin, dashes, some (.plain name)⟩, .nothing⟩
        :: ⟨⟨margin + 2 * dashes + 2, 0, some (.plain typeKey)⟩, .word (.plain tag)⟩
        :: ⟨⟨margin + 2 * dashes + 2, 0, some (.plain propertiesKey)⟩, .nothing⟩
        :: Outline.entryRows (margin + 2 * dashes + 4) 0 os := by
  simp [Outline.entryRows, Outline.rows, Head.opening, Head.inner, Head.column, Layout.step]

/-- In a document these rows stand behind a dash or at the start of a line. -/
theorem textRows_versioned (hname : IsName name) (htag : IsVersioned tag) (hne : entries ≠ [])
    (asSequence : Bool) :
    ((Outline.ofTree (versioned name tag entries asSequence)).textRelabel LineEnd.restored).textRows
      = ⟨⟨0, asSequence.toNat, some (.plain name)⟩, .nothing⟩
        :: ⟨⟨keyMargin asSequence, 0, some (.plain typeKey)⟩, .word (.plain tag)⟩
        :: ⟨⟨keyMargin asSequence, 0, some (.plain propertiesKey)⟩, .nothing⟩
        :: Outline.entryRows (keyMargin asSequence + 2) 0 (Outline.relabelEntries LineEnd.restored
          (keyMargin asSequence + 2) 0 (Outline.ofEntries entries)) := by
  have hkey : keyWord typeKey = .plain typeKey := keyWord_of_isName (by decide +kernel)
  have hproperties : keyWord propertiesKey = .plain propertiesKey :=
    keyWord_of_isName (by decide +kernel)
  have htype : ∀ margin, LineEnd.restored ⟨margin, 0, some (.plain typeKey)⟩
      (.ofLeaf ⟨.str, tag, some .double⟩) = .word (.plain tag) := fun margin =>
    restored_type ((by decide +kernel : IsName typeKey).lettered.bareKey? (Nat.zero_le _)) htag
  obtain ⟨e, es, rfl⟩ := List.exists_cons_of_ne_nil hne
  -- The outline of the tree has the words of the layout for keys, and the type is not yet put back.
  cases asSequence with
  | true =>
    have hr := entryRows_versioned name tag 0 1
      (Outline.relabelEntries LineEnd.restored 6 0 (Outline.ofEntries (e :: es)))
    rw [← keyWord_of_isName hname, ← htype 4, ← hkey, ← hproperties] at hr ⊢
    exact (List.append_nil _).trans hr
  | false =>
    have hr := entryRows_versioned name tag 0 0
      (Outline.relabelEntries LineEnd.restored 4 0 (Outline.ofEntries (e :: es)))
    rw [← keyWord_of_isName hname, ← htype 2, ← hkey, ← hproperties] at hr ⊢
    exact hr

theorem text_plainKey (margin : Nat) (key : Text) :
    (⟨margin, 0, some (.plain key)⟩ : Head).text = Text.spaces margin ++ (key ++ [':']) := by
  simp [Head.text, Head.lead, Head.mark, Word.written]

/-- The lines before the properties: the name and the type begin no section, and the key of the
properties begins one. -/
theorem scanFirst_versioned (hname : IsName name) (hne : name ≠ propertiesKey) (asSequence : Bool)
    (tag : Text) (lines : List Text) :
    Properties.scanFirst
        ((⟨0, asSequence.toNat, some (.plain name)⟩ : Head).text
          :: ((⟨keyMargin asSequence, 0, some (.plain typeKey)⟩ : Head).text ++ ' ' :: tag)
          :: (⟨keyMargin asSequence, 0, some (.plain propertiesKey)⟩ : Head).text :: lines)
      = (Properties.scanLines (keyMargin asSequence) none [] lines).map some := by
  have hfirst : Properties.startsSection
      (⟨0, asSequence.toNat, some (.plain name)⟩ : Head).text = false := by
    cases asSequence with
    | true => exact Properties.not_startsSection (c := '-') rfl (by decide)
    | false => exact Properties.not_startsSection_name hname hne
  have htype : Properties.startsSection
      ((⟨keyMargin asSequence, 0, some (.plain typeKey)⟩ : Head).text ++ ' ' :: tag) = false := by
    rw [text_plainKey]
    cases asSequence <;> exact Properties.not_startsSection (c := 'C') rfl (by decide)
  have hkey : Properties.startsSection
        (⟨keyMargin asSequence, 0, some (.plain propertiesKey)⟩ : Head).text = true
      ∧ Properties.indentOf (⟨keyMargin asSequence, 0, some (.plain propertiesKey)⟩ : Head).text
        = keyMargin asSequence := by
    cases asSequence <;> decide
  rw [Properties.scanFirst, if_neg (by rw [hfirst]; decide), Properties.scanFirst,
    if_neg (by rw [htype]; decide), Properties.scanFirst, if_pos hkey.1, hkey.2]

variable {c : Control}

/-- Such a document has a text only if its integers are not too long to be written. -/
theorem hasShortIntegers_of_scanned (hc : c.IsScanned) {asSequence : Bool} {u : Text}
    (hu : render (.single name c asSequence) = .ok u) :
    (Document.single name c asSequence).HasShortIntegers := by
  refine hasShortIntegers_of_render
    (wellFormed_single (Control.wellFormed_of_scanned hc) name asSequence) hu fun e he => ?_
  obtain rfl := List.mem_singleton.1 he
  rw [hc.keyOrder]
  exact List.mem_cons_of_mem _ List.mem_cons_self

/-- The tree that such a document is written from, and that it stays. -/
theorem exists_versioned (hname : IsName name) (hc : c.IsScanned) {asSequence : Bool}
    (hs : Property.HasShortIntegersEntries c.properties) :
    ∃ Ts, Property.toTreeEntries c.properties = Yaml.Tree.substituteEntries nofun Ts ∧ Ts ≠ []
      ∧ (Document.single name c asSequence).toTree
        = (versioned name c.typeTag Ts asSequence).weaken
      ∧ KeepsTree none (versioned name c.typeTag Ts asSequence) := by
  have hkeeps := Property.keepsEntries_of_lasts c.properties
    (Property.wellFormed_of_areScanned _ hc.properties)
    (Property.lasts_of_areScanned _ hc.properties hs)
  obtain ⟨Ts, hTs, hkeeps, hkeys⟩ := exists_weakenEntries _ hkeeps
  rw [Property.keys_toTreeEntries] at hkeys
  refine ⟨Ts, hTs, ?_, ?_, keepsTree_versioned hname hc.type hkeeps (hkeys ▸ hc.distinct) _⟩
  · rintro rfl
    exact hc.nonempty (List.map_eq_nil_iff.1 hkeys)
  · show nest [(.text name .plain, c.toTree)] asSequence = _
    rw [Control.toTree_of_isVersioned (Control.wellFormed_of_scanned hc) hc.type hc.keyOrder, hTs]
    cases asSequence <;> rfl

/-- A document with short integers is scanned as its properties on lines of their own. -/
theorem scan_render_of_short (hname : IsName name) (hne : name ≠ propertiesKey) (hc : c.IsScanned)
    {asSequence : Bool} (hs : Property.HasShortIntegersEntries c.properties) :
    ∃ u, render (.single name c asSequence) = .ok u
      ∧ Properties.scan u = .ok (some (c.properties.filter (·.2.isOnLine))) := by
  obtain ⟨Ts, hTs, hTne, hT, hk⟩ := exists_versioned hname hc hs
  have hr : IsRoot (versioned name c.typeTag Ts asSequence) :=
    isRoot_of_weaken (α := Foreign) (hT ▸ isRoot_toTree (List.cons_ne_nil _ _))
  refine ⟨_, by rw [render, hT]; exact textOf_weaken hr hk, ?_⟩
  obtain ⟨hreturn, hlines⟩ := lines_restoredText hr hk
  have hscan : Properties.scanLines (keyMargin asSequence) none [] _
      = .ok ([] ++ c.properties.filter (·.2.isOnLine)) :=
    Properties.scanLines_entries (Nat.lt_add_of_pos_right Nat.two_pos) hc.properties hs hc.distinct
      hTs rfl fun _ _ => List.not_mem_nil
  rw [Properties.scan, Text.pairsToFeeds_eq hreturn, hlines,
    textRows_versioned hname hc.type hTne]
  simp only [List.flatMap_cons, Row.lines, LineEnd.first, LineEnd.below, Word.written,
    List.append_nil, List.cons_append, List.nil_append]
  rw [scanFirst_versioned hname hne, hscan]
  rfl

/-- A document of such a control is scanned as its properties on lines of their own, just if its
integers are not too long to be written. -/
theorem scan_render_iff (hname : IsName name) (hne : name ≠ propertiesKey) (hc : c.IsScanned)
    (asSequence : Bool) :
    (∃ u, render (.single name c asSequence) = .ok u
        ∧ Properties.scan u = .ok (some (c.properties.filter (·.2.isOnLine))))
      ↔ (Document.single name c asSequence).HasShortIntegers :=
  ⟨fun ⟨_, hu, _⟩ => hasShortIntegers_of_scanned hc hu, fun hs =>
    scan_render_of_short hname hne hc (hs _ List.mem_cons_self)⟩

/-- A control with an object whose entries have the keys of controls, a formula whose lines look
like properties, a comment and the key of properties, an empty value, and three values on lines of
their own. -/
def crowded : Control :=
  ⟨"Classic/Button@2.2.0".toList,
    [("Text".toList, .formula "\"a: b\" # c".toList),
      (propertiesKey, .object [(typeKey, .formula "1".toList),
        (propertiesKey, .object [("X".toList, .bool false)])]),
      ("OnSelect".toList, .formula "If(a,\n# b\n    X: =2\n\nProperties:\n)".toList),
      ("Tooltip".toList, .empty), ("X".toList, .int (-5)), ("Visible".toList, .bool true)],
    [], [typeKey, propertiesKey]⟩

theorem crowded_isScanned : crowded.IsScanned where
  type := ⟨"Classic/Button".toList, "2.2.0".toList, by decide +kernel, by decide +kernel,
    by decide +kernel, by decide +kernel, by decide +kernel⟩
  extras := rfl
  keyOrder := rfl
  nonempty := List.cons_ne_nil _ _
  distinct := by decide +kernel
  properties := by
    have hkeys : ∀ k ∈ [typeKey, propertiesKey, "Text".toList, "OnSelect".toList,
        "Tooltip".toList, "X".toList, "Visible".toList], IsName k := by decide +kernel
    have htexts : ∀ e ∈ ["\"a: b\" # c".toList, "1".toList,
        "If(a,\n# b\n    X: =2\n\nProperties:\n)".toList],
        IsTypedText e ∧ ('\n' ∈ e ∨ e.getLast?.any isBlank = false) := by decide +kernel
    simp only [List.forall_mem_cons, ← Property.isScanned_formula_iff] at hkeys htexts
    obtain ⟨htype, hproperties, htext, hselect, htooltip, hx, hvisible, -⟩ := hkeys
    obtain ⟨hquoted, hone, hblock, -⟩ := htexts
    exact ⟨htext, hquoted, hproperties,
      ⟨List.cons_ne_nil _ _, by decide +kernel, htype, hone, hproperties,
        ⟨List.cons_ne_nil _ _, List.nodup_singleton _, hx, trivial, trivial⟩, trivial⟩,
      hselect, hblock, htooltip, trivial, hx, trivial, hvisible, trivial, trivial⟩

theorem scan_render_crowded :
    (IsName "Button_1".toList ∧ "Button_1".toList ≠ propertiesKey ∧ crowded.IsScanned)
      ∧ ∃ u, render (.single "Button_1".toList crowded true) = .ok u
        ∧ Properties.scan u = .ok (some [("Text".toList, .formula "\"a: b\" # c".toList),
          ("X".toList, .int (-5)), ("Visible".toList, .bool true)]) := by
  have hname : IsName "Button_1".toList := by decide +kernel
  have hne : "Button_1".toList ≠ propertiesKey := by decide +kernel
  refine ⟨⟨hname, hne, crowded_isScanned⟩,
    (scan_render_iff hname hne crowded_isScanned true).2 fun e he => ?_⟩
  obtain rfl := List.mem_singleton.1 he
  have hshort : isLongInteger (-5) = false := by decide +kernel
  exact ⟨trivial, ⟨trivial, ⟨trivial, trivial⟩, trivial⟩, trivial, trivial, hshort, trivial,
    trivial⟩

/-- A control with an integer as its only property. -/
def counter (n : Int) : Control :=
  ⟨"X@1".toList, [("T".toList, .int n)], [], [typeKey, propertiesKey]⟩

theorem counter_isScanned (n : Int) : (counter n).IsScanned where
  type := ⟨"X".toList, "1".toList, rfl, by decide +kernel, by decide +kernel,
    by decide +kernel, by decide +kernel⟩
  extras := rfl
  keyOrder := rfl
  nonempty := List.cons_ne_nil _ _
  distinct := List.nodup_singleton _
  properties := ⟨(by decide +kernel : IsName "T".toList), trivial, trivial⟩

/-- An integer with one digit more than may be written: its document has no text that could be
scanned. -/
theorem not_scan_render_counter :
    (IsName "B".toList ∧ "B".toList ≠ propertiesKey
      ∧ (counter (Nat.pow 10 mostDigits)).IsScanned)
      ∧ ¬ ∃ u, render (.single "B".toList (counter (Nat.pow 10 mostDigits)) true) = .ok u
        ∧ Properties.scan u
          = .ok (some ((counter (Nat.pow 10 mostDigits)).properties.filter (·.2.isOnLine))) := by
  refine ⟨⟨by decide +kernel, by decide +kernel, counter_isScanned _⟩, fun ⟨u, hu, _⟩ => ?_⟩
  have hshort := hasShortIntegers_of_scanned (counter_isScanned _) hu _ List.mem_cons_self
  have hlong : isLongInteger (Nat.pow 10 mostDigits : Nat) = true :=
    isLongInteger_of_le (Nat.le_refl _)
  rw [show isLongInteger _ = false from hshort.1] at hlong
  cases hlong

end Document

end ModernControls
