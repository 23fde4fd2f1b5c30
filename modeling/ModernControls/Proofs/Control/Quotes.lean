import ModernControls.Proofs.Control.Outlines

/-!
# Quoted values

A value between quotation marks is a text, not a formula, whatever it begins with. A formula is
known by the mark before it, so a quoted text that itself begins with the mark gets a second one
when a text is escaped, but only behind a key that the escaper finds again on its line: a key without
quotation marks and without a colon but for its first character. Behind any other key such a text is
taken for a formula, or loses its mark.

Results:
- `classifyText_quoted_iff`: a quoted text is itself just if it does not begin with the mark;
- `shows_of_classify`: a quoted value is its text just if its key is found again or it does not begin
  with the mark;
- `shows_of_parse`: so it is for all properties of all controls of a document.
-/
namespace ModernControls

open Yaml Layout Formula

namespace Property

/-- A quoted text is itself just if it does not begin with the mark. -/
theorem classifyText_quoted_iff (t : Text) :
    classifyText t .quoted = ofText t ↔ t.head? ≠ some formulaMark := by
  refine ⟨fun h hm => ?_, classifyText_of_quoted⟩
  obtain ⟨r, rfl⟩ : ∃ r, t = formulaMark :: r := by
    cases t with
    | nil => cases hm
    | cons c r => exact ⟨r, by rw [Option.some.inj hm]⟩
  by_cases hr : r.head? = some formulaMark
  · obtain ⟨x, rfl⟩ : ∃ x, r = formulaMark :: x := by
      cases r with
      | nil => cases hr
      | cons c x => exact ⟨x, by rw [Option.some.inj hr]⟩
    have htwice : classifyText (formulaMark :: formulaMark :: x) .quoted
        = ofText (formulaMark :: x) := by simp [classifyText, formula?, isMarkedTwice, unmarked]
    rw [htwice] at h
    have hlength := congrArg List.length (Property.string.inj h).1
    simp at hlength
  · rw [classifyText_of_marked hr] at h
    cases h

mutual

/-- Whether a quoted value of an outline behind a key is its text, just if the key is found again or
the text does not begin with the mark, and this is so in all objects. -/
def Shows (key : Word) : Outline → Property → Prop
  | .leaf (.word w), p => w.style ≠ .plain →
    (p = ofText w.value ↔ key.IsFound ∨ w.value.head? ≠ some formulaMark)
  | .map entries, p => ∃ ps, p = .object ps ∧ ShowsEntries entries ps
  | _, _ => True

/-- Whether the keys and values of entries are those of an outline, one after the other. -/
def ShowsEntries : List (Word × Outline) → List (Text × Property) → Prop
  | [], ps => ps = []
  | (key, o) :: rest, ps =>
    ∃ p more, ps = (key.value, p) :: more ∧ Shows key o p ∧ ShowsEntries rest more

end

open Outline

variable {key w : Word} {tree : PlainValue} {p : Property} {path : Text} {margin dashes : Nat}

/-- A quoted value on a line. -/
theorem shows_word (hd : dashes ≤ 1)
    (hs : SaysBehind ⟨margin, dashes, some key⟩ (.leaf (.word w)) tree)
    (hp : classify path tree = .ok p) : Shows key (.leaf (.word w)) p := by
  intro hq
  rcases tree_of_quoted hd hq hs with ⟨rfl, hfound⟩ | ⟨rfl, hfound, hmark⟩
  · obtain rfl : classifyText w.value .quoted = p := Except.ok.inj hp
    rw [classifyText_quoted_iff]
    exact ⟨.inr, fun h => h.elim hfound id⟩
  · obtain rfl : classifyText (formulaMark :: w.value) .quoted = p := Except.ok.inj hp
    obtain ⟨r, hr⟩ : ∃ r, w.value = formulaMark :: r := by
      cases hv : w.value with
      | nil => rw [hv] at hmark; cases hmark
      | cons c r =>
        rw [hv] at hmark
        exact ⟨r, by rw [Option.some.inj hmark]⟩
    refine iff_of_true ?_ (.inl hfound)
    simp [classifyText, formula?, isMarkedTwice, unmarked, hr]

mutual

/-- A value is classified as its outline shows it. -/
theorem shows_of_classify : ∀ (o : Outline) {key : Word} {margin dashes : Nat} {tree : PlainValue}
    {path : Text} {p : Property}, dashes ≤ 1 → SaysBehind ⟨margin, dashes, some key⟩ o tree →
      classify path tree = .ok p → Shows key o p
  | .leaf (.word _), _, _, _, _, _, _, hd, hs, hp => shows_word hd hs hp
  | .leaf .nothing, _, _, _, _, _, _, _, _, _ => trivial
  | .leaf (.formula _), _, _, _, _, _, _, _, _, _ => trivial
  | .leaf (.literal ..), _, _, _, _, _, _, _, _, _ => trivial
  | .leaf .brackets, _, _, _, _, _, _, _, _, _ => trivial
  | .leaf .braces, _, _, _, _, _, _, _, _, _ => trivial
  | .list _, _, _, _, _, _, _, _, _, _ => trivial
  | .map entries, _, _, _, _, _, _, _, hs, hp => by
    obtain ⟨trees, rfl, htrees, hkeys⟩ := hs.entries (Nat.zero_le _)
    obtain ⟨ps, hps, rfl⟩ := exists_of_map hp
    obtain ⟨hshows, hnames⟩ := shows_of_classifyEntries entries htrees hps
    refine ⟨ps, ?_, hshows⟩
    rw [Table.ofEntries_of_nodup (hnames.symm ▸ hkeys)]

theorem shows_of_classifyEntries : ∀ (entries : List (Word × Outline))
    {trees : List (PlainValue × PlainValue)} {path : Text} {ps : List (Text × Property)},
      List.Forall₂ SaysEntry entries trees → classifyEntries path trees = .ok ps →
        ShowsEntries entries ps ∧ ps.map (·.1) = entries.map (·.1.value)
  | [], _, _, _, .nil, hp => by
    obtain rfl := Except.ok.inj hp
    exact ⟨rfl, rfl⟩
  | (key, o) :: rest, _, path, _, .cons (b := (_, tree)) hentry hrest, hp => by
    obtain ⟨rfl, margin, dashes, hd, hbehind⟩ := hentry
    rw [classifyEntries] at hp
    obtain ⟨name, hname, hp⟩ := exists_of_bind hp
    obtain ⟨p, hvalue, hp⟩ := exists_of_bind hp
    obtain ⟨more, hmore, hp⟩ := exists_of_bind hp
    obtain rfl := Except.ok.inj hp
    obtain rfl : name = key.value := Control.eq_keyText_of_keyName hname
    obtain ⟨hshows, hnames⟩ := shows_of_classifyEntries rest hrest hmore
    exact ⟨⟨p, more, rfl, shows_of_classify o hd hbehind hvalue, hshows⟩, by simp [hnames]⟩

end

end Property

/-- Whether the properties of a control are those that an outline shows under their key. -/
def Control.Shows (o : Outline) (c : Control) : Prop :=
  ∀ entries, o = .map entries → ∀ e ∈ entries, e.1.value = propertiesKey →
    ∀ es, e.2 = .map es → Property.ShowsEntries es c.properties

namespace Document

variable {o : Outline} {d : Document}

/-- In every control of a document, a value that stands between quotation marks is the text that it
says, just if its key is found again or the text does not begin with the mark. -/
theorem shows_of_parse (h : ∃ tree, o.Says tree) {text : Text}
    (ht : text.unifyBreaks = o.write .start 0) (hp : parse text = .ok d) :
    List.Forall₂ (fun e c => c.1 = e.1.value ∧ Control.Shows e.2 c.2) o.declared d.controls := by
  obtain ⟨tree, hs⟩ := h
  refine (Outline.declares_of_parse hs ht hp).imp fun e c hc => ⟨hc.1, ?_⟩
  obtain ⟨entries, trees, ho, htrees, hkeys, hcontrol⟩ := hc.control
  intro entries' ho' e' he hkey es hes
  obtain rfl : entries = entries' := Outline.map.inj (ho.symm.trans ho')
  obtain ⟨body, hlookup, -, margin, dashes, -, hbody⟩ := Outline.lookup_of_says htrees hkeys he
  rw [hkey] at hlookup
  dsimp only at hbody
  rw [hes] at hbody
  obtain ⟨bodies, rfl, hbodies, hnames⟩ := hbody.entries (Nat.zero_le _)
  rw [Control.ofEntries] at hcontrol
  split at hcontrol
  · cases hcontrol
  · obtain ⟨tag, -, hcontrol⟩ := exists_of_bind hcontrol
    obtain ⟨properties, hproperties, hcontrol⟩ := exists_of_bind hcontrol
    obtain ⟨extras, -, hcontrol⟩ := exists_of_bind hcontrol
    rw [hlookup, Control.propertiesOf] at hproperties
    obtain ⟨ps, hps, rfl⟩ := exists_of_map hproperties
    obtain ⟨hshows, hshown⟩ := Property.shows_of_classifyEntries es hbodies hps
    rw [← Except.ok.inj hcontrol]
    dsimp only
    rwa [Table.ofEntries_of_nodup (hshown.symm ▸ hnames)]

/-- Quoted values: one that begins with the mark, behind a key that is found again, and two that look
like formulas, behind a quoted key and in an object. -/
def quotedValues : Outline :=
  .list [.map [(.plain ['B'], .map [(.plain typeKey, .leaf (.word (.plain "X@1".toList))),
    (.plain propertiesKey, .map [(.plain ['T'], .leaf (.word (.ofLayout "\x1Eab".toList))),
      (.single ['U'], .leaf (.word (.single "=x".toList))),
      (.plain ['O'], .map [(.plain ['N'], .leaf (.word (.single "= y".toList)))])])])]]

theorem says_quotedValues : ∃ tree, quotedValues.Says tree := by
  obtain ⟨tree, htree⟩ := Option.isSome_iff_exists.1 (by decide +kernel :
    ((quotedValues.textRelabel LineEnd.escaped).tree? : Option PlainValue).isSome = true)
  have hplain : ∀ t : Text, isPlainText t = true ∧ t.length ≤ Lexer.keyReach →
      (Word.plain t).Sound ∧ (Word.plain t).written.length ≤ Lexer.keyReach := fun _ h => h
  have hU : (Word.single ['U']).Sound ∧ (Word.single ['U']).written.length ≤ Lexer.keyReach :=
    ⟨(by decide +kernel : ∀ c ∈ ['U'], isInline c = true), by decide +kernel⟩
  refine ⟨tree, ?_, ?_, ?_, ?_, htree⟩
  · intro item hi
    obtain rfl := List.mem_singleton.1 hi
    exact ⟨_, rfl⟩
  · simp [quotedValues, Outline.Filled, Outline.FilledItems, Outline.FilledEntries]
  · have hrows : quotedValues.textRows = [⟨⟨0, 1, some (.plain ['B'])⟩, .nothing⟩,
        ⟨⟨4, 0, some (.plain typeKey)⟩, .word (.plain "X@1".toList)⟩,
        ⟨⟨4, 0, some (.plain propertiesKey)⟩, .nothing⟩,
        ⟨⟨6, 0, some (.plain ['T'])⟩, .word (.ofLayout "\x1Eab".toList)⟩,
        ⟨⟨6, 0, some (.single ['U'])⟩, .word (.single "=x".toList)⟩,
        ⟨⟨6, 0, some (.plain ['O'])⟩, .nothing⟩,
        ⟨⟨8, 0, some (.plain ['N'])⟩, .word (.single "= y".toList)⟩] := rfl
    rw [hrows]
    simp only [List.forall_mem_cons, List.not_mem_nil, false_imp_iff, implies_true, and_true]
    refine ⟨Row.reads_nothing (hplain _ (by decide +kernel)),
      Row.reads_word (hplain _ (by decide +kernel)) (by decide +kernel : isPlainText _ = true)
        (by decide +kernel), Row.reads_nothing (hplain _ (by decide +kernel)),
      Row.reads_word (hplain _ (by decide +kernel)) (Word.sound_layout _) (by decide +kernel),
      Row.reads_word hU (by decide +kernel : ∀ c ∈ "=x".toList, isInline c = true)
        (by decide +kernel), Row.reads_nothing (hplain _ (by decide +kernel)),
      Row.reads_word (hplain _ (by decide +kernel))
        (by decide +kernel : ∀ c ∈ "= y".toList, isInline c = true) (by decide +kernel)⟩
  · simp only [quotedValues, Outline.Keyed, Outline.KeyedItems, Outline.KeyedEntries]
    decide +kernel

/-- The control with these values. -/
def quotedControl : Control :=
  ⟨"X@1".toList, [(['T'], .ofText "\x1Eab".toList), (['U'], .ofText "=x".toList),
    (['O'], .object [(['N'], .ofText "= y".toList)])], [], [typeKey, propertiesKey]⟩

/-- Quoted values are texts, behind keys that are found again whatever they begin with. -/
theorem shows_quotedValues : (∃ tree, quotedValues.Says tree)
    ∧ (quotedValues.write .start 0).unifyBreaks = quotedValues.write .start 0
    ∧ parse (quotedValues.write .start 0) = .ok (.single ['B'] quotedControl true)
    ∧ List.Forall₂ (fun e c => c.1 = e.1.value ∧ Control.Shows e.2 c.2) quotedValues.declared
        [(['B'], quotedControl)] := by
  have hbreaks : (quotedValues.write .start 0).unifyBreaks = quotedValues.write .start 0 := by
    decide +kernel
  have hparse : parse (quotedValues.write .start 0) = .ok (.single ['B'] quotedControl true) := by
    decide +kernel
  exact ⟨says_quotedValues, hbreaks, hparse, shows_of_parse says_quotedValues hbreaks hparse⟩

/-- The text of a control with a value under a quoted key. -/
def underQuotedKey (value : Text) : Text :=
  "- B:\n    Control: X@1\n    Properties:\n      \"T\": ".toList ++ value ++ ['\n']

/-- Behind a quoted key a quoted text that begins with the mark is a formula. -/
theorem formula_underQuotedKey : ¬ ∀ (value text : Text) (d : Document),
    decode value = .ok (some text) → parse (underQuotedKey value) = .ok d →
      d = .single ['B'] ⟨"X@1".toList, [(['T'], .ofText text)], [], [typeKey, propertiesKey]⟩ true := by
  intro h
  have htext := h "\"\\x1eabc\"".toList "\x1Eabc".toList
    (.single ['B'] ⟨"X@1".toList, [(['T'], .formula "abc".toList)], [], [typeKey, propertiesKey]⟩ true)
    (by decide +kernel) (by decide +kernel)
  exact absurd htext (by decide +kernel)

end Document

end ModernControls
