import ModernControls.Text.Folding

/-!
# Samples

Texts of classic controls to try a conversion with.
-/

namespace ModernControls

namespace Sample

/-- A text from its lines. -/
def ofLines (lines : List String) : Text := lines.flatMap fun line => line.toList ++ ['\n']

/-- A button. -/
def button : Text :=
  ofLines
    ["- Button1:",
      "    Control: Classic/Button@2.2.0",
      "    Properties:",
      "      OnSelect: =Notify(\"Button clicked\", NotificationType.Information)",
      "      Text: =\"Submit\"",
      "      X: =40",
      "      Y: =200",
      "      Width: =280",
      "      Height: =40",
      "      Fill: =RGBA(56, 96, 178, 1)",
      "      Color: =RGBA(255, 255, 255, 1)",
      "      DisabledFill: =RGBA(166, 166, 166, 1)",
      "      BorderColor: =RGBA(0, 0, 0, 0)",
      "      DisabledBorderColor: =RGBA(0, 0, 0, 0)",
      "      BorderThickness: =0",
      "      FocusedBorderThickness: =1",
      "      DisplayMode: =DisplayMode.Edit",
      "      RadiusTopLeft: =10",
      "      RadiusTopRight: =10"]

/-- A gallery. -/
def gallery : Text :=
  ofLines
    ["- Gallery1:",
      "    Control: Gallery@2.15.0",
      "    Variant: BrowseLayout_Vertical_TwoTextOneImageVariant_ver5.0",
      "    Properties:",
      "      Items: =SampleCollection",
      "      OnSelect: =Select(Self.Selected)",
      "      X: =40",
      "      Y: =100",
      "      Width: =320",
      "      Height: =400",
      "      TemplateSize: =80",
      "      TemplateFill: =RGBA(255, 255, 255, 1)",
      "      BorderColor: =RGBA(225, 223, 221, 1)",
      "      BorderThickness: =1"]

/-- A form. -/
def form : Text :=
  ofLines
    ["- Form1:",
      "    Control: Form@2.4.4",
      "    Properties:",
      "      DataSource: =SampleTable",
      "      Item: =First(SampleTable)",
      "      DefaultMode: =FormMode.Edit",
      "      OnSuccess: =Notify(\"Form submitted successfully\", NotificationType.Success)",
      "      X: =40",
      "      Y: =100",
      "      Width: =400",
      "      Height: =550",
      "      Fill: =RGBA(255, 255, 255, 1)",
      "      BorderColor: =RGBA(225, 223, 221, 1)",
      "      BorderThickness: =1"]

/-- The samples by their kinds.
mirrors `SAMPLES` (engine.lib 223-277) -/
def all : List (Text × Text) :=
  [("button".toList, button), ("gallery".toList, gallery), ("form".toList, form)]

/-- The sample of a kind, case apart.
mirrors `sample_classic_yaml` (engine.lib 280-290) -/
def find? (kind : Text) : Option Text := (all.find? fun entry => entry.1 = kind.fold).map (·.2)

/-- The words for a kind without a sample. -/
def unknownMessage (kind : Text) : Text :=
  "Unknown sample '".toList ++ kind ++ "'. Available: ".toList
    ++ Text.join [',', ' '] (all.map (·.1))

end Sample

end ModernControls
