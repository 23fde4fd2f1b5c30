import ModernControls.Text.Shown
import ModernControls.Yaml.Mark

/-!
# Faults in YAML texts

What can be wrong with a YAML text, and the words for it. A fault names what was being read and
since where, and what was wrong and where. Apart from faults there are characters that no text may
hold, and breakages, for which no report is made: scalars that name a value which does not exist,
and integers that are too long to be shown.
-/

namespace ModernControls.Yaml

/-- The kinds of node. -/
inductive NodeKind
  | scalar
  | sequence
  | mapping
  deriving DecidableEq, Repr

/-- The name of a kind of node. -/
def NodeKind.text : NodeKind → Text
  | .scalar => "scalar".toList
  | .sequence => "sequence".toList
  | .mapping => "mapping".toList

/-- What was being read when a fault was found. -/
inductive Activity
  | nextToken
  | simpleKey
  | directive
  | directiveUri
  | tag
  | tagUri
  | anchor
  | alias
  | blockScalar
  | quotedScalar
  | doubleQuotedScalar
  | node
  | blockNode
  | flowNode
  | blockCollection
  | blockMapping
  | flowSequence
  | flowMapping
  | firstAnchor (name : Text)
  | singleDocument
  | mapping
  | pairs
  | orderedMap
  deriving DecidableEq, Repr

/-- The words for an activity. -/
def Activity.text : Activity → Text
  | .nextToken => "while scanning for the next token".toList
  | .simpleKey => "while scanning a simple key".toList
  | .directive => "while scanning a directive".toList
  | .directiveUri => "while parsing a directive".toList
  | .tag => "while scanning a tag".toList
  | .tagUri => "while parsing a tag".toList
  | .anchor => "while scanning an anchor".toList
  | .alias => "while scanning an alias".toList
  | .blockScalar => "while scanning a block scalar".toList
  | .quotedScalar => "while scanning a quoted scalar".toList
  | .doubleQuotedScalar => "while scanning a double-quoted scalar".toList
  | .node => "while parsing a node".toList
  | .blockNode => "while parsing a block node".toList
  | .flowNode => "while parsing a flow node".toList
  | .blockCollection => "while parsing a block collection".toList
  | .blockMapping => "while parsing a block mapping".toList
  | .flowSequence => "while parsing a flow sequence".toList
  | .flowMapping => "while parsing a flow mapping".toList
  | .firstAnchor name =>
    "found duplicate anchor ".toList ++ name.shown ++ "; first occurrence".toList
  | .singleDocument => "expected a single document in the stream".toList
  | .mapping => "while constructing a mapping".toList
  | .pairs => "while constructing pairs".toList
  | .orderedMap => "while constructing an ordered map".toList

/-- What a character was expected to be. -/
inductive Expected
  | alphanumeric
  | digit
  | digitOrPoint
  | digitOrSpace
  | space
  | commentOrBreak
  | exclamation
  | closingAngle
  | uri
  | uriEscape
  | blockIndicators
  | hexadecimals (count : Nat)
  deriving DecidableEq, Repr

/-- The words for an expectation. -/
def Expected.text : Expected → Text
  | .alphanumeric => "alphabetic or numeric character".toList
  | .digit => "a digit".toList
  | .digitOrPoint => "a digit or '.'".toList
  | .digitOrSpace => "a digit or ' '".toList
  | .space => "' '".toList
  | .commentOrBreak => "a comment or a line break".toList
  | .exclamation => "'!'".toList
  | .closingAngle => "'>'".toList
  | .uri => "URI".toList
  | .uriEscape => "URI escape sequence of 2 hexadecimal numbers".toList
  | .blockIndicators => "chomping or indentation indicators".toList
  | .hexadecimals count =>
    "escape sequence of ".toList ++ Text.ofNat count ++ " hexadecimal numbers".toList

/-- What was wrong. -/
inductive Problem
  | cannotStart (c : Char)
  | expected (what : Expected) (found : Char)
  | noColon
  | entryNotAllowed
  | keyNotAllowed
  | valueNotAllowed
  | undecodable (reason : Text)
  | zeroIndentation
  | unknownEscape (c : Char)
  | endOfStream
  | documentSeparator
  | noDocumentStart (found : Text)
  | secondYamlDirective
  | incompatibleVersion
  | secondHandle (handle : Text)
  | undefinedHandle (handle : Text)
  | noContent (found : Text)
  | noBlockEnd (found : Text)
  | noSequenceEnd (found : Text)
  | noMappingEnd (found : Text)
  | undefinedAlias (name : Text)
  | secondAnchor
  | anotherDocument
  | recursiveNode
  | unhashableKey
  | duplicateKey (shown : Text)
  | notScalar (kind : NodeKind)
  | notSequence (kind : NodeKind)
  | notMapping (kind : NodeKind)
  | notPairSequence (kind : NodeKind)
  | notPair (kind : NodeKind)
  | notSinglePair (count : Nat)
  | notMergeable (kind : NodeKind)
  | notMergeableItem (kind : NodeKind)
  | unknownTag (tag : Text)
  | notAscii (reason : Text)
  | notBase64 (reason : Text)
  deriving DecidableEq, Repr

private def found (what : Text) (kind : NodeKind) : Text :=
  "expected ".toList ++ what ++ ", but found ".toList ++ kind.text

/-- The words for a problem. -/
def Problem.text : Problem → Text
  | .cannotStart c =>
    "found character ".toList ++ Text.shown [c] ++ " that cannot start any token".toList
  | .expected what c =>
    "expected ".toList ++ what.text ++ ", but found ".toList ++ Text.shown [c]
  | .noColon => "could not find expected ':'".toList
  | .entryNotAllowed => "sequence entries are not allowed here".toList
  | .keyNotAllowed => "mapping keys are not allowed here".toList
  | .valueNotAllowed => "mapping values are not allowed here".toList
  | .undecodable reason => reason
  | .zeroIndentation =>
    "expected indentation indicator in the range 1-9, but found 0".toList
  | .unknownEscape c => "found unknown escape character ".toList ++ Text.shown [c]
  | .endOfStream => "found unexpected end of stream".toList
  | .documentSeparator => "found unexpected document separator".toList
  | .noDocumentStart token =>
    "expected '<document start>', but found ".toList ++ token.shown
  | .secondYamlDirective => "found duplicate YAML directive".toList
  | .incompatibleVersion =>
    "found incompatible YAML document (version 1.* is required)".toList
  | .secondHandle handle => "duplicate tag handle ".toList ++ handle.shown
  | .undefinedHandle handle => "found undefined tag handle ".toList ++ handle.shown
  | .noContent token => "expected the node content, but found ".toList ++ token.shown
  | .noBlockEnd token => "expected <block end>, but found ".toList ++ token.shown
  | .noSequenceEnd token => "expected ',' or ']', but got ".toList ++ token.shown
  | .noMappingEnd token => "expected ',' or '\x7d', but got ".toList ++ token.shown
  | .undefinedAlias name => "found undefined alias ".toList ++ name.shown
  | .secondAnchor => "second occurrence".toList
  | .anotherDocument => "but found another document".toList
  | .recursiveNode => "found unconstructable recursive node".toList
  | .unhashableKey => "found unhashable key".toList
  | .duplicateKey shown => "found duplicate key ".toList ++ shown
  | .notScalar kind => found "a scalar node".toList kind
  | .notSequence kind => found "a sequence node".toList kind
  | .notMapping kind => found "a mapping node".toList kind
  | .notPairSequence kind => found "a sequence".toList kind
  | .notPair kind => found "a mapping of length 1".toList kind
  | .notSinglePair count =>
    "expected a single mapping item, but found ".toList ++ Text.ofNat count ++ " items".toList
  | .notMergeable kind => found "a mapping or list of mappings for merging".toList kind
  | .notMergeableItem kind => found "a mapping for merging".toList kind
  | .unknownTag tag => "could not determine a constructor for the tag ".toList ++ tag.shown
  | .notAscii reason => "failed to convert base64 data into ascii: ".toList ++ reason
  | .notBase64 reason => "failed to decode base64 data: ".toList ++ reason

/-- What was being read, and since which place if that is known. -/
structure Context where
  activity : Activity
  since : Option Mark
  deriving DecidableEq, Repr

/-- What is wrong with a text and where. -/
structure Fault where
  context : Option Context
  problem : Problem
  mark : Mark
  deriving DecidableEq, Repr

namespace Fault

/-- A fault while something was being read since a place. -/
def during (activity : Activity) (since : Mark) (problem : Problem) (mark : Mark) : Fault :=
  ⟨some ⟨activity, some since⟩, problem, mark⟩

/-- A fault that stands by itself. -/
def alone (problem : Problem) (mark : Mark) : Fault := ⟨none, problem, mark⟩

/-- The lines that say what was being read and since where. -/
def contextLines (source : Text) (mark : Mark) : Option Context → List Text
  | none => []
  | some ⟨activity, none⟩ => [activity.text]
  | some ⟨activity, some since⟩ =>
    if since.sameSpot mark then [activity.text] else [activity.text, since.text source]

/-- A fault as messages show it. -/
def text (source : Text) (fault : Fault) : Text :=
  Text.ofLines (contextLines source fault.mark fault.context
    ++ [fault.problem.text, fault.mark.text source])

end Fault

/-- Values that a scalar names and that do not exist, integers that have to be shown and are too
long for it, or nodes of a shape that their tag cannot take. Reading and writing break off there
without a report. -/
inductive Breakage
  | codePoint
  | hugeCodePoint
  | number
  | emptyNumber
  | hugeNumber
  | longInteger
  | boolean
  | shape
  | entries
  | moment
  | calendar
  | unstyledText
  deriving DecidableEq, Repr

/-- Why a text is not read. -/
inductive Error
  | unreadable (index : Nat) (c : Char)
  | fault (fault : Fault)
  | breakage (breakage : Breakage)
  deriving DecidableEq, Repr

/-- A reading step that may fail. -/
abbrev Reading (α : Type) := Except Error α

/-- The failure of a reading step by a fault. -/
def Fault.raise {α : Type} (fault : Fault) : Reading α := .error (.fault fault)

/-- The report on a character that no text may hold. -/
def unreadableText (index : Nat) (c : Char) : Text :=
  "unacceptable character #x".toList ++ Text.ofHex 4 c.toNat
    ++ ": special characters are not allowed\n".toList
    ++ "  in \"<unicode string>\", position ".toList ++ Text.ofNat index

/-- Whether a text may hold a character. -/
def isReadable (c : Char) : Bool :=
  let n := c.toNat
  n = 0x09 || n = 0x0A || n = 0x0D || (0x20 ≤ n && n ≤ 0x7E) || n = 0x85
    || (0xA0 ≤ n && n ≤ 0xD7FF) || (0xE000 ≤ n && n ≤ 0xFFFD) || 0x10000 ≤ n

/-- The first character of a text that it may not hold, with its place.
mirrors `check_printable` of the YAML library -/
def firstUnreadable? (text : Text) : Option (Nat × Char) :=
  (text.zipIdx.find? fun (c, _) => !isReadable c).map fun (c, i) => (i, c)

end ModernControls.Yaml
