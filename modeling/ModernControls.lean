import ModernControls.Text.Blank
import ModernControls.Text.Digit
import ModernControls.Text.Printable
import ModernControls.Text.Folding
import ModernControls.Text.Shown
import ModernControls.Table
import ModernControls.Decimal.Shortest
import ModernControls.Decimal.Reading
import ModernControls.Json.Reader
import ModernControls.Json.Writer
import ModernControls.Yaml.Cursor
import ModernControls.Yaml.Token.Scalar
import ModernControls.Yaml.Token.Tag
import ModernControls.Yaml.Token.Stream
import ModernControls.Yaml.Tag
import ModernControls.Yaml.Tree
import ModernControls.Yaml.Graph
import ModernControls.Yaml.Graph.OfText
import ModernControls.Yaml.Graph.Merge
import ModernControls.Yaml.Tree.OfText
import ModernControls.Yaml.Layout.Tree
import ModernControls.Formula.Escape
import ModernControls.Control.Property
import ModernControls.Control.TypeToken
import ModernControls.Control.Document
import ModernControls.Control.Marks
import ModernControls.Control.Error
import ModernControls.Control.Reading
import ModernControls.Control.Writing
import ModernControls.Control.Scan
import ModernControls.Note
import ModernControls.Mapping.Configuration
import ModernControls.Mapping.Reading
import ModernControls.Mapping.Types
import ModernControls.Mapping.Path
import ModernControls.Mapping.Properties
import ModernControls.Mapping.BuiltIn
import ModernControls.Control.Naming
import ModernControls.Conversion.Log
import ModernControls.Conversion.Rules
import ModernControls.Conversion.Convert
import ModernControls.Conversion.Engine
import ModernControls.Conversion.Session
import ModernControls.Conversion.Samples
import ModernControls.Files
import ModernControls.Environment
import ModernControls.Settings
import ModernControls.Mapping.Loading
import ModernControls.CommandLine.Command
import ModernControls.CommandLine.Report
import ModernControls.CommandLine.Words
import ModernControls.CommandLine.Run
import ModernControls.Main
import ModernControls.Proofs.Conversion.Memory
import ModernControls.Proofs.Control.Agreement
import ModernControls.Proofs.Control.Lasting
import ModernControls.Proofs.Control.Formulas
import ModernControls.Proofs.Control.Ordinary
import ModernControls.Proofs.Control.Outlines
import ModernControls.Proofs.Control.Reading
import ModernControls.Proofs.Control.Quotes
import ModernControls.Proofs.Control.Declarations
import ModernControls.Proofs.Control.Bare
import ModernControls.Proofs.Yaml.Scanning
import ModernControls.Proofs.Yaml.Streams
import ModernControls.Proofs.Conversion.Isolation
import ModernControls.Proofs.Conversion.Lookups
import ModernControls.Proofs.Mapping.Usable
import ModernControls.Proofs.Json.Quoted
import ModernControls.Proofs.Json.RoundTrip
import ModernControls.Proofs.Mapping.Exported
import ModernControls.Proofs.Yaml.Composing
import ModernControls.Proofs.Yaml.Making
import ModernControls.Proofs.Yaml.Existing
import ModernControls.Proofs.Yaml.Short
import ModernControls.Proofs.Formula.Returning
import ModernControls.Proofs.Formula.Reversed
import ModernControls.Proofs.Formula.Runs
import ModernControls.Proofs.Control.Reporting
import ModernControls.Proofs.Conversion.Reported
import ModernControls.Proofs.Mapping.Paths
import ModernControls.Proofs.Mapping.Placing
import ModernControls.Proofs.Mapping.Orders
import ModernControls.Proofs.Mapping.Overriding
import ModernControls.Proofs.Mapping.Writes
import ModernControls.Proofs.Mapping.Layers
import ModernControls.Proofs.Mapping.Resolving
import ModernControls.Proofs.Conversion.Additions
import ModernControls.Proofs.Conversion.Shapes
import ModernControls.Proofs.Conversion.Corners
import ModernControls.Proofs.CommandLine.Lines
import ModernControls.Proofs.CommandLine.Converting
import ModernControls.Proofs.Control.WordKeys
import ModernControls.Proofs.Yaml.LongKeys
import ModernControls.Proofs.Control.PlainValues
import ModernControls.Proofs.Formula.LineNumbers
import ModernControls.Proofs.Control.QuotedLines
import ModernControls.Proofs.Control.PlainLines
import ModernControls.Proofs.Control.ScannedLines
import ModernControls.Proofs.Control.ScannedProperties
import ModernControls.Proofs.Control.TypeTokens
