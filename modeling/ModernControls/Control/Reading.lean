import ModernControls.Control.Document
import ModernControls.Control.Error
import ModernControls.Formula.Escape

/-!
# Reading control documents

A document is a map from names to controls, or a list of such maps with one entry each. A control
is a map with a type. Every value of a property is classified: a marked text and a text that is not
quoted and begins with an equality sign are formulas, any other text is a text.

A key becomes a text, so an integer that is too long to be shown is no key.

Results:
- `classifyText_of_quoted`: a quoted text without the formula mark is never a formula;
- `classifyText_of_marked`: a text after one mark is a formula, whatever it holds.
-/

namespace ModernControls

open Yaml

/-- The text that a key becomes. -/
def keyName (key : PlainValue) : Except Control.Error Text :=
  match key.keyText? with
  | some name => .ok name
  | none => .error (.broken .longInteger)

namespace Property

/-- Whether a text begins with the mark twice: then it is a text that itself begins with the
mark. -/
def isMarkedTwice : Text → Bool
  | a :: b :: _ => a = formulaMark && b = formulaMark
  | _ => false

/-- The formula that a text of a document means, if it is one.
mirrors `_formula_text` (dialect.lib 149-160) -/
def formula? (text : Text) (form : TextForm) : Option Text :=
  if isMarkedTwice text then none
  else if text.head? = some formulaMark then some text.tail
  else if form = .quoted then none
  else match text.trimStart with
    | c :: expression => if c = formulaSign then some expression else none
    | [] => none

/-- A text of a document that is no formula.
mirrors `_string_text` (dialect.lib 163-167) -/
def unmarked (text : Text) : Text := if isMarkedTwice text then text.tail else text

/-- A text of a document as a value. -/
def classifyText (text : Text) (form : TextForm) : Property :=
  match formula? text form with
  | some expression => .formula expression
  | none => ofText (unmarked text)

/-- A value that no property holds. -/
def unsupported {β : Type} (path : Text) (value : PlainValue) : Except Control.Error β :=
  (InputFault.unsupportedValue path (Yaml.Tree.typeName Foreign.typeName value)).raise

mutual

/-- A value of a document at a path of keys.
mirrors `_classify` (dialect.lib 170-191) -/
def classify (path : Text) : PlainValue → Except Control.Error Property
  | .null => .ok .empty
  | .bool b => .ok (.bool b)
  | .int n => .ok (.int n)
  | .float x => .ok (.float x)
  | .text t form => .ok (classifyText t form)
  | .map entries => (classifyEntries path entries).map fun es => .object (Table.ofEntries es)
  | .bytes b => unsupported path (.bytes b)
  | .moment m => unsupported path (.moment m)
  | .list items => unsupported path (.list items)
  | .tuple items => unsupported path (.tuple items)
  | .set items => unsupported path (.set items)
  | .foreign value => unsupported path (.foreign value)

/-- The entries of a map of a document at a path of keys. -/
def classifyEntries (path : Text) :
    List (PlainValue × PlainValue) → Except Control.Error (List (Text × Property))
  | [] => .ok []
  | (key, value) :: rest => do
    let name ← keyName key
    let value ← classify (path ++ '.' :: name) value
    let rest ← classifyEntries path rest
    .ok ((name, value) :: rest)

end

end Property

namespace Control

mutual

/-- A further part of a control: its formulas are made such, and its keys texts.
mirrors `_normalize_extra` (dialect.lib 194-205) -/
def normalize : PlainValue → Except Control.Error PlainValue
  | .text t form => .ok (match Property.formula? t form with
    | some expression => .foreign (.property (.formula expression))
    | none => .text (Property.unmarked t) .plain)
  | .list items => (normalizeItems items).map .list
  | .map entries => (normalizeEntries entries).map Yaml.Tree.ofEntries
  | value => .ok value

/-- Items of a further part. -/
def normalizeItems : List PlainValue → Except Control.Error (List PlainValue)
  | [] => .ok []
  | item :: rest => do
    let item ← normalize item
    let rest ← normalizeItems rest
    .ok (item :: rest)

/-- Entries of a further part. -/
def normalizeEntries :
    List (PlainValue × PlainValue) → Except Control.Error (List (PlainValue × PlainValue))
  | [] => .ok []
  | (key, value) :: rest => do
    let name ← keyName key
    let value ← normalize value
    let rest ← normalizeEntries rest
    .ok ((.text name .plain, value) :: rest)

end

/-- Whether a key is that of the type or of the properties of a control. -/
def isOwnKey : PlainValue → Bool
  | .text key _ => key = typeKey || key = propertiesKey
  | _ => false

/-- The further parts of a control under their keys.
mirrors `_build_node` (dialect.lib 130-134) -/
def extrasOf : List (PlainValue × PlainValue) → Except Control.Error (List (Text × PlainValue))
  | [] => .ok []
  | (key, value) :: rest =>
    if isOwnKey key then extrasOf rest
    else do
      let name ← keyName key
      let value ← normalize value
      let rest ← extrasOf rest
      .ok ((name, value) :: rest)

/-- The properties of a control from what stands under their key.
mirrors `_build_node` (dialect.lib 120-129) -/
def propertiesOf (name : Text) : Option PlainValue → Except Control.Error Properties
  | none => .ok []
  | some .null => .ok []
  | some (.map entries) => (Property.classifyEntries name entries).map Table.ofEntries
  | some _ => (InputFault.invalidProperties name).raise

/-- The type of a control from what stands under its key.
mirrors `_build_node` (dialect.lib 116-118) -/
def typeOf (name : Text) : PlainValue → Except Control.Error Text
  | .text tag _ => if tag.isAllBlank then (InputFault.invalidType name).raise else .ok tag
  | _ => (InputFault.invalidType name).raise

/-- A control from the entries of its map.
mirrors `_build_node` (dialect.lib 112-141) -/
def ofEntries (name : Text) (entries : List (PlainValue × PlainValue)) :
    Except Control.Error Control :=
  match Yaml.Tree.lookup entries typeKey with
  | none => (InputFault.noType name).raise
  | some value => do
    let tag ← typeOf name value
    let properties ← propertiesOf name (Yaml.Tree.lookup entries propertiesKey)
    let extras ← extrasOf entries
    .ok
      { typeTag := TypeToken.unwrapped tag
        properties := properties
        extras := Table.ofEntries extras
        keyOrder := entries.map fun e => e.1.keyText }

/-- A control from what stands under its name. -/
def ofTree (name : Text) : PlainValue → Except Control.Error Control
  | .map entries => ofEntries name entries
  | _ => (InputFault.noType name).raise

end Control

namespace Document

/-- The declarations of a document that is a list.
mirrors `_build_document` (dialect.lib 84-92) -/
def declarations : List PlainValue → Except Control.Error (List (PlainValue × PlainValue))
  | [] => .ok []
  | .map [entry] :: rest => do
    let rest ← declarations rest
    .ok (entry :: rest)
  | _ :: _ => InputFault.notSingle.raise

/-- The controls for declarations after those that are known.
mirrors `_build_document` (dialect.lib 102-107) -/
def controlsOf (known : Table Control) :
    List (PlainValue × PlainValue) → Except Control.Error (Table Control)
  | [] => .ok known
  | (key, body) :: rest => do
    let name ← keyName key
    if known.hasKey name then (InputFault.duplicateName name).raise
    else do
      let control ← Control.ofTree name body
      controlsOf (known ++ [(name, control)]) rest

/-- A document from its declarations. -/
def ofDeclarations (asSequence : Bool) (entries : List (PlainValue × PlainValue)) :
    Except Control.Error Document :=
  if entries.isEmpty then InputFault.noControl.raise
  else (controlsOf [] entries).map (⟨·, asSequence⟩)

/-- A document from the tree of its text. -/
def ofTree : PlainValue → Except Control.Error Document
  | .list items => do
    let entries ← declarations items
    ofDeclarations true entries
  | .map entries => ofDeclarations false entries
  | _ => InputFault.noControl.raise

/-- The tree of a text with formulas, or the report on what is wrong with it.
mirrors `parse_dialect` (dialect.lib 74-77) -/
def treeOf (text : Text) : Except Control.Error PlainValue :=
  match Formula.escape text with
  | .error b => .error (.broken b)
  | .ok escaped =>
    match Yaml.Tree.ofText .reduced escaped with
    | .ok tree => .ok tree
    | .error (.breakage b) => .error (.broken b)
    | .error e => .error (.unparsed ((e.report? escaped).getD []))

/-- The document that a text declares.
mirrors `parse_dialect` (dialect.lib 60-79) -/
def parse (text : Text) : Except Control.Error Document := do
  let tree ← treeOf text
  ofTree tree

end Document

namespace Property

theorem classifyText_of_quoted {t : Text} (h : t.head? ≠ some formulaMark) :
    classifyText t .quoted = ofText t := by
  have h₁ : isMarkedTwice t = false := by
    cases t with
    | nil => rfl
    | cons a r =>
      have ha : a ≠ formulaMark := by simpa using h
      cases r <;> simp [isMarkedTwice, ha]
  simp [classifyText, formula?, unmarked, h₁, h]

theorem classifyText_of_marked {t : Text} (h : t.head? ≠ some formulaMark) (form : TextForm) :
    classifyText (formulaMark :: t) form = .formula t := by
  have h₁ : isMarkedTwice (formulaMark :: t) = false := by
    cases t with
    | nil => rfl
    | cons a r =>
      have ha : a ≠ formulaMark := by simpa using h
      simp [isMarkedTwice, ha]
  simp [classifyText, formula?, h₁]

end Property

end ModernControls
