import ModernControls.Conversion.Convert
import ModernControls.Proofs.Control.Names
import ModernControls.Proofs.Control.Outlines

/-!
# Declarations that are scanned

A conversion looks for a declaration before it reads a text: a name on a line of its own, and the
type on the next line that is not blank. The scan is independent of the reader and finds less: a
type that comes after something else, behind a comment or with an escape in it is read but not
scanned. Where the text of an outline declares one control, with its type first and name and type
written as they are, the scan finds what the reader reads.

Results:
- `scan_declaration`: the declaration at the start of such a text is scanned;
- `type_of_parse`: the control of its document has that name and that type;
- `scan_of_parse`: so both agree, and a conversion notes that control and never reports that there is
  none.
-/
namespace ModernControls

open Yaml Layout Formula

namespace Declaration

/-- Whether the name of a control is scanned as it is read. -/
structure IsScannedName (name : Word) : Prop where
  start : ∃ c r, name.written = c :: r ∧ startsName c = true ∧ ':' ∉ r
  plain : name.written.trim.unquote = name.value

/-- Whether a word is scanned as a type with a version or without, as it is read: plain, and no
formula, or between quotation marks. -/
structure IsScannedType (w : Word) (type : Text) (version : Option Text) : Prop where
  value : w.value = TypeToken.join type version
  written : w.written = w.value ∧ w.value.head? ≠ some formulaSign
    ∨ ∃ q, (q = '"' ∨ q = '\'') ∧ w.written = q :: w.value ++ [q]
  type : type ≠ [] ∧ ∀ c ∈ type, isTypeChar c = true
  version : ∀ v ∈ version, v ≠ [] ∧ ∀ c ∈ v, isVersionChar c = true

variable {name w : Word} {type : Text} {version : Option Text}

/-- Behind a type its line ends, perhaps after a quotation mark. -/
theorem endsLine_close {close : Text}
    (hclose : close = [] ∨ ∃ q, (q = '"' ∨ q = '\'') ∧ close = [q]) (more : Text) :
    endsLine (skipQuote (close ++ '\n' :: more)) = true := by
  rcases hclose with rfl | ⟨q, rfl | rfl, rfl⟩ <;> rfl

/-- A type on its line, with a quotation mark behind it or without one. -/
theorem typeAt_join (htype : type ≠ [] ∧ ∀ c ∈ type, isTypeChar c = true)
    (hversion : ∀ v ∈ version, v ≠ [] ∧ ∀ c ∈ v, isVersionChar c = true) {close : Text}
    (hclose : close = [] ∨ ∃ q, (q = '"' ∨ q = '\'') ∧ close = [q]) (more : Text) :
    typeAt (TypeToken.join type version ++ close ++ '\n' :: more) = some (type, version) := by
  have hend := endsLine_close hclose more
  obtain ⟨x, r, hx, htc, hvc, hat⟩ : ∃ x r, close ++ '\n' :: more = x :: r ∧ isTypeChar x = false
      ∧ isVersionChar x = false ∧ x ≠ '@' := by
    rcases hclose with rfl | ⟨q, rfl | rfl, rfl⟩
    · exact ⟨_, _, rfl, by decide, by decide, by decide⟩
    · exact ⟨_, _, rfl, by decide, by decide, by decide⟩
    · exact ⟨_, _, rfl, by decide, by decide, by decide⟩
  have hne : type.isEmpty = false := by simpa using htype.1
  rw [hx] at hend
  rw [List.append_assoc, hx]
  cases version with
  | none =>
    obtain ⟨htake, hdrop⟩ := Text.takeWhile_run htype.2 htc r
    rw [TypeToken.join, typeAt, htake, hdrop, hne]
    dsimp only
    rw [if_neg Bool.false_ne_true]
    split
    · next heq => exact absurd (List.cons.inj heq).1 hat
    · rw [if_pos hend]
  | some v =>
    obtain ⟨hv, hvs⟩ := hversion v rfl
    have hve : v.isEmpty = false := by simpa using hv
    have hjoin : TypeToken.join type (some v) = type ++ '@' :: v := by
      rw [TypeToken.join, hve]
      rfl
    obtain ⟨htake, hdrop⟩ := Text.takeWhile_run htype.2 (c := '@') (by decide) (v ++ x :: r)
    obtain ⟨hvtake, hvdrop⟩ := Text.takeWhile_run hvs hvc r
    rw [hjoin, List.append_assoc, List.cons_append, typeAt, htake, hdrop, hne]
    dsimp only
    rw [if_neg Bool.false_ne_true]
    simp only [hvtake, hvdrop, hve, hend]
    rfl

/-- The name on a line of its own. -/
theorem nameLine_eq (hn : IsScannedName name) {lead : Text} (hl : lead = [] ∨ lead = ['-', ' '])
    (hfeed : '\n' ∉ name.written) (below : Text) :
    nameLine (lead ++ name.written ++ ':' :: '\n' :: below) = some (name.written, below) := by
  obtain ⟨c, r, hw, hc, hcolon⟩ := hn.start
  rw [hw, List.mem_cons, not_or] at hfeed
  have hc' := hc
  simp only [startsName, Bool.and_eq_true, Bool.not_eq_true', decide_eq_true_eq, ne_eq] at hc'
  obtain ⟨⟨⟨hblank, -⟩, -⟩, hdash⟩ := hc'
  have hbegins : Begins (c :: (r ++ ':' :: '\n' :: below)) := by
    intro d hd
    obtain rfl : c = d := Option.some.inj hd
    refine Bool.eq_false_iff.2 fun hs => ?_
    simp only [isSpaceOrTab, Bool.or_eq_true, decide_eq_true_eq] at hs
    rcases hs with rfl | rfl <;> exact absurd hblank (by decide)
  have hindent : (indentOf (lead ++ name.written ++ ':' :: '\n' :: below)).2
      = c :: (r ++ ':' :: '\n' :: below) := by
    rw [hw, List.append_assoc, List.cons_append]
    rcases hl with rfl | rfl
    · have hi := indentOf_spaces 0 hbegins (by simpa using hdash)
      exact congrArg Prod.snd hi
    · have hi := indentOf_dash 0 hbegins
      exact congrArg Prod.snd hi
  obtain ⟨htake, -⟩ := Text.takeWhile_run (p := fun c => decide (c ≠ ':') && decide (c ≠ '\n')) (t := r)
    (fun d hd => by
      simp only [Bool.and_eq_true, decide_eq_true_eq]
      exact ⟨fun he => hcolon (he ▸ hd), fun he => hfeed.2 (he ▸ hd)⟩)
    (c := ':') (by decide) ('\n' :: below)
  rw [nameLine, hindent]
  dsimp only
  rw [if_pos hc]
  simp only [htake, List.drop_left, hw]
  rfl

/-- A type begins with no blank and with no quotation mark. -/
theorem head_join (h : type ≠ [] ∧ ∀ c ∈ type, isTypeChar c = true) :
    ∃ c r, TypeToken.join type version = c :: r ∧ isBlank c = false ∧ c ≠ '"' ∧ c ≠ '\'' := by
  obtain ⟨c, r, rfl⟩ := List.exists_cons_of_ne_nil h.1
  have hc := h.2 c List.mem_cons_self
  simp only [isTypeChar, Bool.and_eq_true, Bool.not_eq_true', decide_eq_true_eq, ne_eq] at hc
  obtain ⟨⟨⟨-, hblank⟩, hdouble⟩, hsingle⟩ := hc
  rw [TypeToken.join.eq_def]
  split
  · split
    · exact ⟨c, r, rfl, hblank, hdouble, hsingle⟩
    · exact ⟨c, _, rfl, hblank, hdouble, hsingle⟩
  · exact ⟨c, r, rfl, hblank, hdouble, hsingle⟩

/-- The type on its line, from the colon of its key on. -/
theorem typeAt_word (hw : IsScannedType w type version) (more : Text) :
    typeAt (skipQuote ((' ' :: (w.written ++ '\n' :: more)).dropWhile isSpaceOrTab))
      = some (type, version) := by
  have hdrop : ∀ (c : Char) (r : Text), isSpaceOrTab c = false →
      (' ' :: c :: r).dropWhile isSpaceOrTab = c :: r := fun c r hc =>
    (Text.takeWhile_run (t := [' ']) (by decide) hc r).2
  rcases hw.written with ⟨hwritten, -⟩ | ⟨q, hq, hwritten⟩
  · obtain ⟨c, r, hjoin, hblank, hdouble, hsingle⟩ : ∃ c r, TypeToken.join type version = c :: r ∧
        isBlank c = false ∧ c ≠ '"' ∧ c ≠ '\'' := head_join hw.type
    have h := typeAt_join hw.type hw.version (.inl rfl) more
    rw [List.append_nil, hjoin, List.cons_append] at h
    rw [hwritten, hw.value, hjoin, List.cons_append, hdrop _ _ (Text.not_isSpaceOrTab hblank), skipQuote,
      if_neg (by simp [hdouble, hsingle]), h]
  · have h := typeAt_join hw.type hw.version (.inr ⟨q, hq, rfl⟩) more
    have hgap : isSpaceOrTab q = false := by rcases hq with rfl | rfl <;> rfl
    rw [hwritten, hw.value, List.cons_append, List.cons_append, hdrop _ _ hgap, skipQuote, if_pos hq, h]

/-- The declaration at the start of a text. -/
theorem atLine_eq (hn : IsScannedName name) (hw : IsScannedType w type version) {lead : Text}
    (hl : lead = [] ∨ lead = ['-', ' ']) (hfeed : '\n' ∉ name.written) (margin : Nat) (more : Text) :
    atLine (lead ++ name.written ++ ':' :: '\n' :: (Text.spaces margin
      ++ typeKey ++ ':' :: ' ' :: (w.written ++ '\n' :: more))) = some ⟨name.value, type, version⟩ := by
  obtain ⟨c, r, hkey, hc⟩ : ∃ c r, typeKey = c :: r ∧ isBlank c = false :=
    ⟨'C', "ontrol".toList, by decide +kernel, by decide⟩
  have hbelow : (Text.spaces margin ++ typeKey ++ ':' :: ' ' :: (w.written ++ '\n' :: more)).trimStart
      = (typeKey ++ [':']) ++ ' ' :: (w.written ++ '\n' :: more) := by
    rw [List.append_assoc, hkey, List.cons_append, Text.trimStart_spaces margin hc]
    simp
  rw [atLine, nameLine_eq hn hl hfeed]
  simp only [Option.bind_eq_bind, Option.bind_some, hbelow, Text.after?_append, typeAt_word hw,
    hn.plain]

theorem not_blank_of_isTypeChar {c : Char} (h : isTypeChar c = true) :
    isBlank c = false ∧ c ≠ '"' ∧ c ≠ '\'' := by
  simp only [isTypeChar, Bool.and_eq_true, Bool.not_eq_true', decide_eq_true_eq, ne_eq] at h
  exact ⟨h.1.1.2, h.1.2, h.2⟩

theorem not_blank_of_isVersionChar {c : Char} (h : isVersionChar c = true) :
    isBlank c = false ∧ c ≠ '"' ∧ c ≠ '\'' := by
  simp only [isVersionChar, Bool.or_eq_true, decide_eq_true_eq] at h
  rcases h with h | rfl
  · exact ⟨not_isBlank_of_isDecimalDigit h, ne_quote_of_isDecimalDigit h⟩
  · decide

theorem IsScannedType.value_eq (hw : IsScannedType w type version) :
    w.value = type ++ version.elim [] (TypeToken.versionSign :: ·) := by
  rw [hw.value]
  cases version with
  | none => rw [TypeToken.join, Option.elim, List.append_nil]
  | some v => rw [TypeToken.join, if_neg (by simpa using (hw.version v rfl).1), Option.elim]

/-- A type holds no blanks and no quotation marks. -/
theorem IsScannedType.not_blank (hw : IsScannedType w type version) :
    ∀ c ∈ w.value, isBlank c = false ∧ c ≠ '"' ∧ c ≠ '\'' := by
  intro c hc
  rw [hw.value_eq] at hc
  rcases List.mem_append.1 hc with hc | hc
  · exact not_blank_of_isTypeChar (hw.type.2 c hc)
  · cases version with
    | none => cases hc
    | some v =>
      rcases List.mem_cons.1 hc with rfl | hc
      · decide
      · exact not_blank_of_isVersionChar ((hw.version v rfl).2 c hc)

/-- The declaration that a text begins with is scanned. -/
theorem first_of_atLine {t : Text} {decl : Declaration} (h : atLine t = some decl) :
    first true t = some decl := by
  cases t with
  | nil => cases h
  | cons c r => rw [first, if_pos rfl, h]

end Declaration

namespace Yaml.Outline

variable {o body : Outline} {n : Word} {tree : PlainValue}

theorem declared_ne_nil {items : List Outline} (hw : (list items).IsWhole) (hf : (list items).Filled) :
    (list items).declared ≠ [] := by
  obtain ⟨item, others, rfl⟩ := List.exists_cons_of_ne_nil hf.1
  obtain ⟨entries, rfl⟩ := hw item List.mem_cons_self
  obtain ⟨e, es, rfl⟩ := List.exists_cons_of_ne_nil hf.2.1.1
  exact List.cons_ne_nil _ _

/-- The only declaration of an outline stands alone in a map, or in a list with one item. -/
theorem eq_of_declared (hw : o.IsWhole) (hf : o.Filled) (hd : o.declared = [(n, body)]) :
    o = map [(n, body)] ∨ o = list [map [(n, body)]] := by
  cases o with
  | leaf last => cases hd
  | map entries => exact .inl (congrArg map hd)
  | list items =>
    obtain ⟨item, others, rfl⟩ := List.exists_cons_of_ne_nil hf.1
    obtain ⟨entries, rfl⟩ := hw item List.mem_cons_self
    obtain ⟨e, es, rfl⟩ := List.exists_cons_of_ne_nil hf.2.1.1
    obtain ⟨rfl, hnone⟩ := List.cons.inj hd
    obtain ⟨rfl, hothers⟩ := List.append_eq_nil_iff.1 hnone
    obtain rfl : others = [] := by
      by_contra hne
      exact declared_ne_nil (fun item hi => hw item (List.mem_cons_of_mem _ hi)) ⟨hne, hf.2.2⟩ hothers
    exact .inr rfl

theorem write_of_declared (ho : o = map [(n, body)] ∨ o = list [map [(n, body)]]) :
    ∃ lead margin, (lead = [] ∨ lead = ['-', ' '])
      ∧ o.write .start 0 = lead ++ n.written ++ ':' :: body.write .value margin := by
  rcases ho with rfl | rfl
  · exact ⟨[], Layout.step, .inl rfl, by simp [write, writeEntries, Place.lead]⟩
  · exact ⟨['-', ' '], Layout.step + Layout.step, .inr rfl,
      by simp [write, writeItems, writeEntries, Place.lead]⟩

theorem sound_of_declared (ho : o = map [(n, body)] ∨ o = list [map [(n, body)]])
    (h : o.Says tree) : n.Sound := by
  have hs := h.sound
  rcases ho with rfl | rfl
  · exact hs.2.1.1
  · exact hs.2.1.2.1.1

end Yaml.Outline

namespace Declaration

open Outline

variable {o : Outline} {tree : PlainValue} {n w : Word} {rest : List (Word × Outline)}
  {type : Text} {version : Option Text}

/-- The declaration of a text of an outline is scanned, whether its breaks are line feeds or have
carriage returns before them. -/
theorem scan_declaration (h : o.Says tree)
    (hd : o.declared = [(n, .map ((.plain typeKey, .leaf (.word w)) :: rest))])
    (hn : IsScannedName n) (hw : IsScannedType w type version) {text : Text}
    (ht : text.pairsToFeeds = o.write .start 0) :
    scan text = some ⟨n.value, type, version⟩ := by
  have ho := eq_of_declared h.whole h.filled hd
  obtain ⟨lead, margin, hlead, hwrite⟩ := write_of_declared ho
  have hfeed : '\n' ∉ n.written := fun hm =>
    absurd (Word.not_break (sound_of_declared ho h) _ hm) (by decide)
  have hbody : (map ((.plain typeKey, .leaf (.word w)) :: rest)).write .value margin
      = '\n' :: (Text.spaces margin ++ typeKey ++ ':' :: ' ' :: (w.written ++ '\n'
        :: writeEntries (Text.spaces margin) margin rest)) := by
    simp [write, writeEntries, Place.lead, LineEnd.write, Word.written]
  rw [scan, ht, hwrite, hbody]
  exact first_of_atLine (atLine_eq hn hw hlead hfeed margin _)

/-! ## The type that is read -/

/-- A text that is no formula and has no blanks and quotation marks is quoted as it is, if at all. -/
theorem treatment_unquoted {t : Text} (ht : ∀ c ∈ t, isBlank c = false ∧ c ≠ '"' ∧ c ≠ '\'')
    (hf : t.head? ≠ some formulaSign) {key u : Text} (h : treatment key t = .ok (.quote u)) : u = t := by
  have hend : t.trimEnd = t := Text.trimEnd_eq fun c hc => (ht c (List.mem_of_getLast? hc)).1
  cases t with
  | nil => cases h
  | cons c r =>
    rw [treatment, if_neg (by simpa using hf), hend, treatmentOfPlain,
      if_neg (ht c List.mem_cons_self).2.1] at h
    split at h
    · cases h
    · split at h
      · cases h
      · split at h
        · exact (Treatment.quote.inj (Except.ok.inj h)).symm
        · cases h

/-- Only a text can be a type. -/
theorem exists_text_of_typeOf {name tag : Text} (h : Control.typeOf name tree = .ok tag) :
    ∃ form, tree = .text tag form := by
  cases tree with
  | text t form =>
    rw [Control.typeOf] at h
    split at h
    · cases h
    · exact ⟨form, by rw [Except.ok.inj h]⟩
  | _ => cases h

/-- A plain scalar that is read as a text says itself. -/
theorem eq_of_plainTree? {t u : Text} {form : TextForm}
    (h : plainTree? t = some (Yaml.Tree.text u form : PlainValue)) : u = t := by
  rw [plainTree?] at h
  split at h
  · cases h
  · obtain ⟨b, -, hb⟩ := Option.map_eq_some_iff.1 h
    cases hb
  · obtain ⟨n, -, hn⟩ := Option.map_eq_some_iff.1 h
    cases hn
  · split at h
    · split at h <;> cases h
    · cases h
    · cases h
  · exact (Yaml.Tree.text.inj (Option.some.inj h)).1.symm
  · cases h

/-- What is read from the word of a type is the type. -/
theorem eq_of_typeOf (hw : IsScannedType w type version) {key : Word} {margin dashes : Nat}
    (hd : dashes ≤ 1) (hs : SaysBehind ⟨margin, dashes, some key⟩ (.leaf (.word w)) tree)
    {name tag : Text} (htag : Control.typeOf name tree = .ok tag) : tag = w.value := by
  obtain ⟨form, rfl⟩ := exists_text_of_typeOf htag
  by_cases hq : w.style = .plain
  · obtain ⟨t, rfl⟩ : ∃ t, w = .plain t := by
      cases w with
      | plain t => exact ⟨t, rfl⟩
      | single t => cases hq
      | double ps => cases hq
    have hf : t.head? ≠ some formulaSign := by
      rcases hw.written with ⟨-, hf⟩ | ⟨q, -, hlong⟩
      · exact hf
      · have hlength := congrArg List.length hlong
        simp only [Word.written, Word.value, List.length_append, List.length_cons,
          List.length_nil] at hlength
        omega
    have hm : (LineEnd.escaped ⟨margin, dashes, some key⟩ (.word (.plain t))).tree?
        = some (Yaml.Tree.text tag form) := hs.means
    -- The scalar is quoted where the escaper finds its key and something in it asks for quotes.
    rw [LineEnd.escaped] at hm
    split at hm
    · exact eq_of_plainTree? hm
    · dsimp only at hm
      split at hm
      · next ht =>
        obtain rfl := treatment_unquoted hw.not_blank hf ht
        rw [LineEnd.tree?_quoted (by simp), Word.value_ofJson] at hm
        exact (Yaml.Tree.text.inj (Option.some.inj hm)).1.symm
      · exact eq_of_plainTree? hm
  · rcases tree_of_quoted hd hq hs with ⟨htree, -⟩ | ⟨-, -, hmark⟩
    · exact (Yaml.Tree.text.inj htree).1
    · exact absurd (hw.not_blank _ (List.mem_of_mem_head? hmark)).1 (by decide)

/-- The only control of such a text has the type that its declaration says. -/
theorem type_of_parse (h : o.Says tree)
    (hd : o.declared = [(n, .map ((.plain typeKey, .leaf (.word w)) :: rest))])
    (hw : IsScannedType w type version) {text : Text} (ht : text.unifyBreaks = o.write .start 0)
    {d : Document} (hp : Document.parse text = .ok d) :
    ∃ c : Control, d.controls = [(n.value, c)] ∧ c.typeTag = TypeToken.join type version := by
  have hall := declares_of_parse h ht hp
  rw [hd] at hall
  obtain ⟨⟨name, c⟩, hc, hcontrols⟩ : ∃ c, Declares _ c ∧ d.controls = [c] := by
    cases hall' : d.controls with
    | nil => rw [hall'] at hall; cases hall
    | cons c more =>
      rw [hall'] at hall
      cases hall with
      | cons hc hmore =>
        cases hmore
        exact ⟨c, hc, rfl⟩
  obtain rfl : name = n.value := hc.1
  refine ⟨c, hcontrols, ?_⟩
  obtain ⟨entries, trees, he, htrees, hkeys, hcontrol⟩ := hc.control
  obtain rfl := Outline.map.inj he
  obtain ⟨body, hlookup, -, margin, dashes, hdashes, hbody⟩ :=
    lookup_of_says htrees hkeys List.mem_cons_self
  have hlookup' : Yaml.Tree.lookup trees typeKey = some body := hlookup
  rw [Control.ofEntries, hlookup'] at hcontrol
  obtain ⟨tag, htag, hcontrol⟩ := exists_of_bind hcontrol
  obtain ⟨properties, -, hcontrol⟩ := exists_of_bind hcontrol
  obtain ⟨extras, -, hcontrol⟩ := exists_of_bind hcontrol
  obtain rfl := eq_of_typeOf hw hdashes hbody htag
  have hc := congrArg Control.typeTag (Except.ok.inj hcontrol)
  exact hc.symm.trans ((TypeToken.unwrapped_eq hw.not_blank).trans hw.value)

end Declaration

namespace Conversion

/-! ## Conversions -/

/-- Whether a conversion is one of a control of a name and a type, or fails for another reason than
that there is no such control. -/
def Treats (name tag : Text) : Except Control.Error Converted → Prop
  | .ok result => result.classicType = tag ∧ ∃ control, result.document.controls = [(name, control)]
  | .error e => ∀ fault, e ≠ .input fault

variable {name tag : Text} {m : Mapping}

theorem treats_andThen {α : Type} {a : Attempt α} {next : α → Attempt Converted}
    (ha : ∀ e, a.2 = .error e → ∀ fault, e ≠ .input fault)
    (hnext : ∀ x, Treats name tag (next x).2) : Treats name tag (a.andThen next).2 := by
  obtain ⟨notes, outcome⟩ := a
  cases outcome with
  | ok x => exact hnext x
  | error e => exact ha e rfl

theorem treats_written (classicType : Text) {document : Document} {control : Control}
    (h : document.controls = [(name, control)]) (modernType : Text) :
    Treats name classicType (written classicType document modernType).2 := by
  rw [written]
  cases hr : document.render with
  | ok output => exact ⟨rfl, control, h⟩
  | error e =>
    rw [Document.render, Document.textOf] at hr
    intro fault he
    subst he
    split at hr
    · cases hr
    · cases hr
    · split at hr <;> cases hr

theorem not_input_defaultValue (key : Text) (given : Json) :
    Ends (fun e => ∀ fault, e ≠ .input fault) (Mapping.defaultValue key given) fun _ => True := by
  rw [Mapping.defaultValue]
  split
  · rintro _ ⟨⟩
  · split
    · trivial
    · rintro _ ⟨⟩

theorem not_input_addDefaults (done : Properties) (defaults : List (Text × Json)) :
    Ends (fun e => ∀ fault, e ≠ .input fault) (Mapping.addDefaults done defaults)
      fun _ => True := by
  induction defaults generalizing done with
  | nil => trivial
  | cons entry rest ih =>
    rw [Mapping.addDefaults]
    split
    · exact ih done
    · exact (not_input_defaultValue entry.1 entry.2).bind fun added _ =>
        (ih (Table.insert done entry.1 added.1)).bind fun _ _ => trivial

/-- Whatever stops the mapping of properties is no fault of the input. -/
theorem not_input_mapProperties (m : Mapping) (classic : Properties) (modernType : Text) :
    Ends (fun e => ∀ fault, e ≠ .input fault) (m.mapProperties classic modernType)
      fun _ => True :=
  (not_input_addDefaults _ _).bind fun _ _ => trivial

theorem treats_convertControl (m : Mapping) (name : Text) (control : Control) (asSequence : Bool) :
    Treats name control.typeTag (convertControl m name control asSequence).2 := by
  refine treats_andThen (fun e he => ?_) fun modernType =>
    treats_andThen (fun e he => ?_) fun mapped =>
      treats_andThen (fun e he => ?_) fun properties => treats_written _ rfl modernType
  · rw [typeFor] at he
    split at he <;> cases he
    rintro fault ⟨⟩
  · rw [mappedFor] at he
    split at he
    · cases he
    · next hm =>
      cases he
      exact (not_input_mapProperties m _ modernType).of_error hm
  · rw [ruledFor] at he
    split at he <;> cases he

/-- Whether a conversion notes a control of a name and a type and treats it. -/
def Announces (name tag : Text) : Except Refusal Conversion → Prop
  | .ok c => c.log.take 2 = [.started, .found name tag] ∧ Treats name tag (.ok c.result)
  | .error r => (loggedReport? r.error ≠ none → r.log.take 2 = [.started, .found name tag])
      ∧ Treats name tag (.error r.error)

/-- Where the scan finds the only control that is read, a conversion notes it and treats it. -/
theorem announces_of_scan {text : Text} {decl : Declaration} (hs : Declaration.scan text = some decl)
    {d : Document} (hp : Document.parse text = .ok d) {c : Control}
    (hd : d.controls = [(decl.name, c)]) (htag : c.typeTag = decl.fullType) (m : Mapping) :
    Announces decl.name c.typeTag (convert m text) := by
  have hattempt : attempt m text = ([.started, .found decl.name c.typeTag]
      ++ (convertControl m decl.name c d.asSequence).1,
        (convertControl m decl.name c d.asSequence).2) := by
    have hdocument : convertDocument m d = convertControl m decl.name c d.asSequence := by
      simp only [convertDocument, hd]
    rw [attempt, hs, convertDeclared, hp]
    dsimp only
    rw [hdocument, htag]
    rfl
  have htreats := treats_convertControl m decl.name c d.asSequence
  rw [convert, hattempt]
  cases hresult : (convertControl m decl.name c d.asSequence).2 with
  | ok result =>
    rw [hresult] at htreats
    exact ⟨rfl, htreats⟩
  | error e =>
    rw [hresult] at htreats
    cases hreport : loggedReport? e with
    | none =>
      simp only [hreport]
      exact ⟨fun hne => absurd hreport hne, htreats⟩
    | some report =>
      simp only [hreport]
      exact ⟨fun _ => rfl, htreats⟩

end Conversion

namespace Document

open Declaration

/-- Where the text of an outline declares one control with its type first, in a form that is scanned,
the scan finds the control that is read, and every conversion notes it and treats it. -/
theorem scan_of_parse {o : Outline} {n w : Word} {rest : List (Word × Outline)} {type : Text}
    {version : Option Text} (h : ∃ tree, o.Says tree)
    (hd : o.declared = [(n, .map ((.plain typeKey, .leaf (.word w)) :: rest))])
    (hn : IsScannedName n) (hw : IsScannedType w type version) {text : Text}
    (ht : text.pairsToFeeds = o.write .start 0) {d : Document} (hp : parse text = .ok d) :
    ∃ decl c, scan text = some decl ∧ d.controls = [(decl.name, c)] ∧ decl.fullType = c.typeTag
      ∧ ∀ m, Conversion.Announces decl.name c.typeTag (Conversion.convert m text) := by
  obtain ⟨tree, hs⟩ := h
  have hbreaks : text.unifyBreaks = o.write .start 0 :=
    (Text.unifyBreaks_of_pairsToFeeds (ht ▸ hs.not_return)).trans ht
  have hscan := scan_declaration hs hd hn hw ht
  obtain ⟨c, hc, htag⟩ := type_of_parse hs hd hw hbreaks hp
  exact ⟨_, c, hscan, hc, htag.symm, Conversion.announces_of_scan hscan hp hc htag⟩

/-- A control under a quoted name and with a quoted type, around another control. -/
def nestedControl : Outline :=
  .list [.map [(.single ['B'], .map [(.plain typeKey, .leaf (.word (.ofLayout "X@1".toList))),
    (.plain "Children".toList, .list [.map [(.plain ['C'],
      .map [(.plain typeKey, .leaf (.word (.plain ['Y'])))])]])])]]

/-- The text of this control, with carriage returns before the line feeds. -/
def nestedText : Text :=
  ("- 'B':\r\n    Control: \"X@1\"\r\n    Children:\r\n      - C:\r\n          Control: Y\r\n").toList

theorem says_nestedControl : ∃ tree, nestedControl.Says tree := by
  obtain ⟨tree, htree⟩ := Option.isSome_iff_exists.1 (by decide +kernel :
    ((nestedControl.textRelabel LineEnd.escaped).tree? : Option PlainValue).isSome = true)
  have hplain : ∀ t : Text, isPlainText t = true ∧ t.length ≤ Lexer.keyReach →
      (Word.plain t).Sound ∧ (Word.plain t).written.length ≤ Lexer.keyReach := fun _ h => h
  have hB : (Word.single ['B']).Sound ∧ (Word.single ['B']).written.length ≤ Lexer.keyReach :=
    ⟨(by decide +kernel : ∀ c ∈ ['B'], isInline c = true), by decide +kernel⟩
  refine ⟨tree, ?_, ?_, ?_, ?_, htree⟩
  · intro item hi
    obtain rfl := List.mem_singleton.1 hi
    exact ⟨_, rfl⟩
  · simp [nestedControl, Outline.Filled, Outline.FilledItems, Outline.FilledEntries]
  · have hrows : nestedControl.textRows = [⟨⟨0, 1, some (.single ['B'])⟩, .nothing⟩,
        ⟨⟨4, 0, some (.plain typeKey)⟩, .word (.ofLayout "X@1".toList)⟩,
        ⟨⟨4, 0, some (.plain "Children".toList)⟩, .nothing⟩,
        ⟨⟨6, 1, some (.plain ['C'])⟩, .nothing⟩,
        ⟨⟨10, 0, some (.plain typeKey)⟩, .word (.plain ['Y'])⟩] := rfl
    rw [hrows]
    simp only [List.forall_mem_cons, List.not_mem_nil, false_imp_iff, implies_true, and_true]
    exact ⟨Row.reads_nothing hB,
      Row.reads_word (hplain _ (by decide +kernel)) (Word.sound_layout _) (by decide +kernel),
      Row.reads_nothing (hplain _ (by decide +kernel)),
      Row.reads_nothing (hplain _ (by decide +kernel)),
      Row.reads_word (hplain _ (by decide +kernel)) (by decide +kernel : isPlainText _ = true)
        (by decide +kernel)⟩
  · simp only [nestedControl, Outline.Keyed, Outline.KeyedItems, Outline.KeyedEntries]
    decide +kernel

theorem scan_nestedControl : (∃ tree, nestedControl.Says tree)
    ∧ IsScannedName (.single ['B']) ∧ IsScannedType (.ofLayout "X@1".toList) ['X'] (some ['1'])
    ∧ nestedText.pairsToFeeds = nestedControl.write .start 0
    ∧ ∃ d, parse nestedText = .ok d
      ∧ ∃ decl c, scan nestedText = some decl ∧ d.controls = [(decl.name, c)]
        ∧ decl.fullType = c.typeTag
        ∧ ∀ m, Conversion.Announces decl.name c.typeTag (Conversion.convert m nestedText) := by
  have hname : IsScannedName (.single ['B']) :=
    ⟨⟨'\'', ['B', '\''], rfl, by decide, by decide⟩, by decide +kernel⟩
  have htype : IsScannedType (.ofLayout "X@1".toList) ['X'] (some ['1']) :=
    ⟨by decide +kernel, .inr ⟨'"', .inl rfl, by decide +kernel⟩, by decide, by decide⟩
  have htext : nestedText.pairsToFeeds = nestedControl.write .start 0 := by decide +kernel
  obtain ⟨d, hd⟩ : ∃ d, parse nestedText = .ok d := ⟨.single ['B'] ⟨"X@1".toList, [],
    [("Children".toList, .list [.map [(.text ['C'] .plain, .map [(.text typeKey .plain,
      .text ['Y'] .plain)])]])], [typeKey, "Children".toList]⟩ true, by decide +kernel⟩
  exact ⟨says_nestedControl, hname, htype, htext, d, hd,
    scan_of_parse says_nestedControl rfl hname htype htext hd⟩

/-- The text of a control with a colon in its name. -/
def colonInName : Text := "- \"a:b\":\n    Control: X@1\n".toList

/-- Not every control that is read is scanned, even where its name and its type stand on two lines:
no colon in a name is passed over. -/
theorem not_scan_colonInName : ¬ ∀ (text : Text) (d : Document) (c : Text × Control),
    parse text = .ok d → d.controls = [c] →
      ∃ decl, scan text = some decl ∧ decl.name = c.1 ∧ decl.fullType = c.2.typeTag := by
  intro h
  obtain ⟨decl, hscan, -⟩ := h colonInName
    (.single "a:b".toList ⟨"X@1".toList, [], [], [typeKey]⟩ true) _ (by decide +kernel) rfl
  have hnone : scan colonInName = none := by decide +kernel
  rw [hnone] at hscan
  cases hscan

end Document

end ModernControls
