import ModernControls.Text

/-!
# Notes

What is noted while a control is converted: one note for every step and every decision, with the
words for each.
-/

namespace ModernControls

/-- How a type was found among the types that are known.
mirrors the ways in `TypeMapper.resolve` (mapping.lib 274-302) -/
inductive TypeMatch
  | exact
  | base
  | caseless
  | baseCaseless
  deriving DecidableEq, Repr

/-- The words for a way of finding a type. -/
def TypeMatch.text : TypeMatch → Text
  | .exact => []
  | .base => " (using base type)".toList
  | .caseless => " (ignoring case)".toList
  | .baseCaseless => " (using base type, ignoring case)".toList

/-- The rules for the categories of controls. -/
inductive Rule
  | button
  | gallery
  | form
  | textInput
  deriving DecidableEq, Repr

/-- The name of a rule in notes. -/
def Rule.text : Rule → Text
  | .button => "button".toList
  | .gallery => "gallery".toList
  | .form => "form".toList
  | .textInput => "text input".toList

/-- A step or a decision of a conversion. -/
inductive Note
  | started
  | found (name type : Text)
  | unsupportedType (type : Text)
  | completed
  | failed (report : Text)
  | typeFound (how : TypeMatch) (token target : Text)
  | skipped (key : Text)
  | overrides (key target : Text)
  | kept (key : Text)
  | dropped (key : Text)
  | blocked (key head : Text)
  | converted (key target : Text)
  | defaulted (key value : Text)
  | applying (rule : Rule)
  | added (key value : Text)
  | hintConverted
  | radiusKept
  | radiusConverted
  deriving DecidableEq, Repr

namespace Note

/-- A property by its key. -/
def property (key : Text) : Text := "Property ".toList ++ key

/-- The words of a note.
mirrors the texts recorded in mapping.lib 274-376, engine.lib 121-176 and engine.rules 68-146 -/
def message : Note → Text
  | started => "Starting conversion".toList
  | found name type => "Found control ".toList ++ name ++ " of type ".toList ++ type
  | unsupportedType type => "Unsupported control type: ".toList ++ type
  | completed => "Conversion completed".toList
  | failed report => "Error: ".toList ++ report
  | typeFound how token target =>
    "Control type conversion".toList ++ how.text ++ ": ".toList ++ token ++ " -> ".toList ++ target
  | skipped key => property key ++ " skipped - no value".toList
  | overrides key target => property key ++ " overrides earlier value of ".toList ++ target
  | kept key => property key ++ " kept unmapped".toList
  | dropped key => property key ++ " dropped - no modern equivalent".toList
  | blocked key head =>
    property key ++ " dropped - ".toList ++ head ++ " already holds a non-object value".toList
  | converted key target => "Property conversion: ".toList ++ key ++ " -> ".toList ++ target
  | defaulted key value => "Added default property: ".toList ++ key ++ " = ".toList ++ value
  | applying rule => "Applying ".toList ++ rule.text ++ "-specific rules".toList
  | added key value => "Added ".toList ++ key ++ " property: ".toList ++ value
  | hintConverted => "Converted HintText to Placeholder".toList
  | radiusKept => "Kept existing BorderRadius, removed corner radius properties".toList
  | radiusConverted => "Converting border radius properties".toList

end Note

end ModernControls
