import ModernControls.Control.TypeToken
import ModernControls.Mapping.Path
import ModernControls.Note

/-!
# Rules for categories

After its properties are mapped, a control of some categories gets further ones: a button, gallery
or form its kind or layout, a text input its placeholder; the corner radii of a button become one
object.
-/

namespace ModernControls

open Properties

/-- The key of the object that holds corner radii.
mirrors `BORDER_RADIUS` (engine.rules 19) -/
def borderRadiusKey : Text := "BorderRadius".toList

/-- The properties for single corners, and the keys of the corners in the object.
mirrors `RADIUS_CORNERS` (engine.rules 20-25) -/
def radiusCorners : List (Text × Text) :=
  [("RadiusTopLeft".toList, "TopLeft".toList), ("RadiusTopRight".toList, "TopRight".toList),
    ("RadiusBottomLeft".toList, "BottomLeft".toList),
    ("RadiusBottomRight".toList, "BottomRight".toList)]

namespace Rule

/-- Properties with a text under a key, if there is none yet.
mirrors `_ensure` (engine.rules 68-73) -/
def ensure (key value : Text) (modern : Properties) : Properties × List Note :=
  if modern.hasKey key then (modern, [])
  else (modern.insert key (Property.ofText value), [.added key value])

/-- The properties for single corners that are present.
mirrors `consolidate_border_radius` (engine.rules 118) -/
def cornerSources (modern : Properties) : List Text :=
  (radiusCorners.map (·.1)).filter modern.hasKey

/-- Properties without those for single corners. -/
def withoutCorners (modern : Properties) : Properties :=
  modern.filter fun (key, _) => !(radiusCorners.map (·.1)).contains key

/-- The value of a corner: that of the object, else that of the property for it, else zero.
mirrors `consolidate_border_radius` (engine.rules 135-142) -/
def cornerValue (modern object : Properties) (corner : Text × Text) : Text × Property :=
  let value := match valueAt object corner.2, valueAt modern corner.1 with
    | .empty, .empty => .int 0
    | .empty, value => value
    | value, _ => value
  (corner.2, value)

/-- The entries of the object with all corners: these first, then what else it holds.
mirrors `consolidate_border_radius` (engine.rules 134-144) -/
def cornerEntries (modern object : Properties) : Properties :=
  let corners := radiusCorners.map (cornerValue modern object)
  corners ++ object.filter fun (key, _) => !(radiusCorners.map (·.2)).contains key

/-- Properties with their corner radii in an object.
mirrors `consolidate_border_radius` (engine.rules 133-146) -/
def withCornerObject (modern object : Properties) : Properties × List Note :=
  ((withoutCorners modern).insert borderRadiusKey (.object (cornerEntries modern object)),
    [.radiusConverted])

/-- Properties whose corner radii stand in one object. A radius for all corners stays, and those of
single corners are dropped then.
mirrors `consolidate_border_radius` (engine.rules 109-146) -/
def consolidate (modern : Properties) : Properties × List Note :=
  let sources := cornerSources modern
  match valueAt modern borderRadiusKey with
  | .empty => if sources.isEmpty then (modern, []) else withCornerObject modern []
  | .object object =>
    if sources.isEmpty ∧ radiusCorners.all fun corner => Table.hasKey object corner.2 then
      (modern, [])
    else withCornerObject modern object
  | _ => if sources.isEmpty then (modern, []) else (withoutCorners modern, [.radiusKept])

/-- The key of the hint of a classic text input. -/
def hintKey : Text := "HintText".toList

/-- The key of the hint of a modern text input. -/
def placeholderKey : Text := "Placeholder".toList

/-- Properties with the hint of the classic control as placeholder, if they have none.
mirrors `text_input_rule` (engine.rules 103-106) -/
def convertHint (classic modern : Properties) : Properties × List Note :=
  match valueAt classic hintKey with
  | .empty => (modern, [])
  | hint =>
    if modern.hasKey placeholderKey then (modern, [])
    else (modern.insert placeholderKey hint, [.hintConverted])

/-- What a rule does to the properties of a modern control.
mirrors `button_rule` to `text_input_rule` (engine.rules 81-106) -/
def run (rule : Rule) (classic modern : Properties) : Properties × List Note :=
  match rule with
  | .button =>
    let typed := ensure "ButtonType".toList "Standard".toList modern
    let rounded := consolidate typed.1
    (rounded.1, typed.2 ++ rounded.2)
  | .gallery => ensure "Layout".toList "Vertical".toList modern
  | .form => ensure "FormMode".toList "Edit".toList modern
  | .textInput => convertHint classic modern

/-- A rule applied, which is noted first. -/
def apply (rule : Rule) (classic modern : Properties) : Properties × List Note :=
  let result := rule.run classic modern
  (result.1, .applying rule :: result.2)

end Rule

/-- The rules by the categories that they are for.
mirrors `_registry` (engine.rules 28) -/
abbrev RuleTable := Table Rule

namespace RuleTable

/-- The built-in rules. -/
def builtIn : RuleTable :=
  [("button".toList, .button), ("gallery".toList, .gallery), ("form".toList, .form),
    ("textinput".toList, .textInput), ("textbox".toList, .textInput)]

/-- Rules with one more under some categories.
mirrors `register_rule` (engine.rules 31-45) -/
def register (rules : RuleTable) (categories : List Text) (rule : Rule) : RuleTable :=
  categories.foldl (fun table category => table.insert category.fold rule) rules

/-- The rule for a type; the empty type has none. -/
def ruleFor (rules : RuleTable) (token : Text) : Option Rule :=
  if token.isEmpty then none else rules.get? (TypeToken.category token)

/-- The rule for a control: that for its modern type, else that for its classic one.
mirrors `get_rule` (engine.rules 54-61) -/
def find? (rules : RuleTable) (modernType : Text) (classicType : Option Text) : Option Rule :=
  ruleFor rules modernType <|> classicType.bind (ruleFor rules)

/-- Whether a text comes before another in the order of their characters, or is the same. -/
def precedes : Text → Text → Bool
  | [], _ => true
  | _ :: _, [] => false
  | a :: as, b :: bs => if a = b then precedes as bs else a.toNat < b.toNat

/-- The categories with rules, in the order of their characters.
mirrors `list_rules` (engine.rules 64-65) -/
def categories (rules : RuleTable) : List Text := rules.keys.mergeSort precedes

end RuleTable

end ModernControls
