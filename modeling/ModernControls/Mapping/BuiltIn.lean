import ModernControls.Mapping.Configuration

/-!
# The built-in configuration

The types, properties and defaults that are known without a mapping file. Types are listed with and
without versions, and under the names of older files.
-/

namespace ModernControls.Mapping

/-- A table from a list of names. -/
def named (entries : List (String × String)) : Table Text :=
  entries.map fun (key, target) => (key.toList, target.toList)

/-- Properties that are renamed. -/
def renamed (entries : List (String × String)) : Table (Option Text) :=
  entries.map fun (key, target) => (key.toList, some target.toList)

/-- Properties that are dropped. -/
def dropped (keys : List String) : Table (Option Text) := keys.map fun key => (key.toList, none)

/-- The modern types of classic ones.
mirrors `CONTROL_TYPES` (mapping.tables 15-73) -/
def builtInTypes : Table Text :=
  named
    [("Classic/Button@2.2.0", "Button@0.0.45"), ("Classic/Button", "Button@0.0.45"),
      ("Label@2.5.1", "Text@0.0.51"), ("Label", "Text@0.0.51"),
      ("HtmlViewer@2.1.0", "Text@0.0.51"), ("Image@2.2.3", "Image@2.2.3"),
      ("Rectangle@2.3.0", "Rectangle@2.3.0"), ("Classic/TextInput@2.3.2", "TextInput@0.0.54"),
      ("Classic/TextInput", "TextInput@0.0.54"), ("Classic/DropDown@2.3.1", "DropDown@0.0.44"),
      ("Classic/DropDown", "DropDown@0.0.44"), ("Classic/ComboBox@2.4.0", "ComboBox@0.0.51"),
      ("Classic/ComboBox", "ComboBox@0.0.51"), ("Classic/CheckBox@2.1.0", "Checkbox@0.0.30"),
      ("Classic/CheckBox", "Checkbox@0.0.30"), ("Classic/Toggle@2.1.0", "Toggle@1.1.5"),
      ("Classic/Toggle", "Toggle@1.1.5"), ("Classic/Radio@2.3.0", "Radio@0.0.25"),
      ("Classic/Radio", "Radio@0.0.25"), ("Classic/Slider@2.1.0", "Slider@1.0.32"),
      ("Classic/Slider", "Slider@1.0.32"), ("Classic/DatePicker@2.6.0", "DatePicker@0.0.46"),
      ("Classic/DatePicker", "DatePicker@0.0.46"), ("Classic/Rating@2.1.0", "Rating@0.0.7"),
      ("Classic/Rating", "Rating@0.0.7"), ("Gallery@2.15.0", "Gallery@2.15.0"),
      ("Gallery", "Gallery@2.15.0"), ("Form@2.4.4", "Form@2.4.4"), ("Form", "Form@2.4.4"),
      ("DataTable@1.0.1", "Table@1.0.278"), ("DataTable", "Table@1.0.278"),
      ("GroupContainer@1.3.0", "GroupContainer@1.3.0"),
      ("GroupContainer", "GroupContainer@1.3.0"), ("button", "Button@0.0.45"),
      ("label", "Text@0.0.51"), ("text", "Text@0.0.51"), ("htmltext", "Text@0.0.51"),
      ("image", "Image@2.2.3"), ("rectangle", "Rectangle@2.3.0"), ("textbox", "TextInput@0.0.54"),
      ("textinput", "TextInput@0.0.54"), ("dropdown", "DropDown@0.0.44"),
      ("combobox", "ComboBox@0.0.51"), ("checkbox", "Checkbox@0.0.30"),
      ("toggle", "Toggle@1.1.5"), ("radio", "Radio@0.0.25"), ("slider", "Slider@1.0.32"),
      ("datepicker", "DatePicker@0.0.46"), ("rating", "Rating@0.0.7"),
      ("gallery", "Gallery@2.15.0"), ("datatable", "Table@1.0.278"), ("form", "Form@2.4.4"),
      ("container", "GroupContainer@1.3.0")]

/-- The looks of a control while it is used, which modern controls do not keep.
mirrors `_STATE_STYLING` (mapping.tables 80-92) -/
def stateStyling : Table (Option Text) :=
  dropped
    ["DisabledFill", "HoverFill", "PressedFill", "DisabledBorderColor", "HoverBorderColor",
      "PressedBorderColor", "DisabledColor", "HoverColor", "PressedColor", "FocusedBorderColor",
      "FocusedBorderThickness"]

/-- The modern properties of classic ones.
mirrors `PROPERTIES` (mapping.tables 94-234) -/
def builtInProperties : Table (Table (Option Text)) :=
  [
    (commonKey,
      stateStyling
        ++ renamed
          [("Size", "FontSize"), ("Color", "FontColor"), ("Italic", "FontItalic"),
           ("Underline", "FontUnderline"), ("Strikethrough", "FontStrikethrough")]),
    ("Button".toList,
      stateStyling
        ++ renamed
          [("Fill", "BasePaletteColor"), ("Color", "FontColor"), ("Size", "FontSize"),
           ("Italic", "FontItalic"), ("Underline", "FontUnderline"),
           ("Strikethrough", "FontStrikethrough"), ("RadiusTopLeft", "BorderRadius.TopLeft"),
           ("RadiusTopRight", "BorderRadius.TopRight"),
           ("RadiusBottomLeft", "BorderRadius.BottomLeft"),
           ("RadiusBottomRight", "BorderRadius.BottomRight")]
        ++ dropped ["Wrap", "VerticalAlign"]),
    ("Text".toList,
      stateStyling
        ++ renamed
          [("Color", "FontColor"), ("Size", "Size"), ("Italic", "FontItalic"),
           ("Underline", "FontUnderline"), ("Strikethrough", "FontStrikethrough"),
           ("Wrap", "Wrap")]
        ++ dropped ["Overflow", "LineHeight"]
        ++ renamed
          [("AutoHeight", "AutoHeight")]),
    ("TextInput".toList,
      stateStyling
        ++ renamed
          [("Default", "Value"), ("HintText", "Placeholder"), ("Color", "FontColor"),
           ("Size", "FontSize"), ("Italic", "FontItalic")]
        ++ dropped ["Clear", "EnableSpellCheck"]
        ++ renamed
          [("RadiusTopLeft", "BorderRadius")]
        ++ dropped ["RadiusTopRight", "RadiusBottomLeft", "RadiusBottomRight"]),
    ("DropDown".toList,
      stateStyling
        ++ renamed
          [("Default", "DefaultSelectedItems"), ("Selected", "SelectedItem")]
        ++ dropped ["AllowEmptySelection", "ChevronBackground", "ChevronFill"]
        ++ renamed
          [("Color", "FontColor"), ("Size", "FontSize")]),
    ("ComboBox".toList,
      stateStyling
        ++ renamed
          [("DefaultSelectedItems", "DefaultSelectedItems"), ("Selected", "SelectedItem"),
           ("SelectMultiple", "SelectMultiple"), ("SearchFields", "SearchFields"),
           ("InputTextPlaceholder", "Placeholder")]
        ++ dropped ["ChevronBackground", "ChevronFill"]
        ++ renamed
          [("Color", "FontColor"), ("Size", "FontSize")]),
    ("Checkbox".toList,
      stateStyling
        ++ renamed
          [("Default", "Checked"), ("Text", "Label")]
        ++ dropped ["CheckboxSize"]
        ++ renamed
          [("CheckmarkFill", "CheckmarkColor"), ("Color", "FontColor"), ("Size", "FontSize")]),
    ("Toggle".toList,
      stateStyling
        ++ renamed
          [("Default", "Checked"), ("TrueText", "Label")]
        ++ dropped ["FalseText", "ShowLabel", "HandleFill"]
        ++ renamed
          [("TrueFill", "CheckedColor")]
        ++ dropped ["FalseFill"]),
    ("Radio".toList,
      stateStyling
        ++ renamed
          [("Default", "DefaultSelectedItems"), ("Selected", "SelectedItem")]
        ++ dropped ["RadioSize", "RadioSelectionFill"]
        ++ renamed
          [("Color", "FontColor"), ("Size", "FontSize")]),
    ("Slider".toList,
      stateStyling
        ++ renamed
          [("Default", "Value"), ("Min", "Min"), ("Max", "Max")]
        ++ dropped ["HandleFill", "RailFill", "ValueFill"]),
    ("DatePicker".toList,
      stateStyling
        ++ renamed
          [("DefaultDate", "SelectedDate"), ("Format", "Format")]
        ++ dropped ["IconFill", "IconBackground"]
        ++ renamed
          [("Color", "FontColor"), ("Size", "FontSize")]),
    ("Gallery".toList,
      renamed
          [("TemplateFill", "TemplateFill"), ("TemplateSize", "TemplateSize"),
           ("TemplatePadding", "TemplatePadding"), ("WrapCount", "WrapCount"),
           ("ShowNavigation", "ShowNavigation"), ("ShowScrollbar", "ShowScrollbar"),
           ("Selected", "Selected")]),
    ("Form".toList,
      renamed
          [("DefaultMode", "FormMode"), ("DataSource", "DataSource"), ("Item", "Item"),
           ("Columns", "Columns")]),
    ("Table".toList,
      stateStyling
        ++ renamed
          [("Items", "Items"), ("Selected", "Selected"), ("HeadingFill", "HeaderColor"),
           ("HeadingColor", "HeaderFontColor")])]

/-- The default properties of modern types.
mirrors `DEFAULTS` (mapping.tables 240-245) -/
def builtInDefaults : Table (Table Json) :=
  [("Button".toList, [("ButtonType".toList, .string "Standard".toList)]),
    ("TextInput".toList, [("Mode".toList, .string "=TextMode.SingleLine".toList)]),
    ("Form".toList, [("FormMode".toList, .string "Edit".toList)]),
    ("Gallery".toList, [("Layout".toList, .string "Vertical".toList)])]

/-- The built-in configuration.
mirrors `default_mappings` (mapping.lib 220-228) -/
def builtIn : Mapping := ⟨builtInTypes, builtInProperties, builtInDefaults⟩

end ModernControls.Mapping
