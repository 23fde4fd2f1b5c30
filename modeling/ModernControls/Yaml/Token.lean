import ModernControls.Yaml.Fault

/-!
# Tokens of YAML text

The tokens that a YAML text consists of, with the places where they begin and end.
-/

namespace ModernControls.Yaml

/-- How a scalar is written. -/
inductive ScalarStyle
  | plain
  | single
  | double
  | literal
  | folded
  deriving DecidableEq, Repr, Inhabited

/-- What a directive says. -/
inductive Directive
  | version (major minor : Nat)
  | handle (name start : Text)
  | other
  deriving DecidableEq, Repr

/-- What a token is. -/
inductive TokenKind
  | streamStart
  | streamEnd
  | directive (directive : Directive)
  | documentStart
  | documentEnd
  | blockSequenceStart
  | blockMappingStart
  | blockEnd
  | flowSequenceStart
  | flowSequenceEnd
  | flowMappingStart
  | flowMappingEnd
  | key
  | value
  | blockEntry
  | flowEntry
  | alias (name : Text)
  | anchor (name : Text)
  | tag (handle : Option Text) (suffix : Text)
  | scalar (value : Text) (style : ScalarStyle)
  deriving DecidableEq, Repr, Inhabited

/-- The name of a token in messages. -/
def TokenKind.text : TokenKind → Text
  | .streamStart => "<stream start>".toList
  | .streamEnd => "<stream end>".toList
  | .directive _ => "<directive>".toList
  | .documentStart => "<document start>".toList
  | .documentEnd => "<document end>".toList
  | .blockSequenceStart => "<block sequence start>".toList
  | .blockMappingStart => "<block mapping start>".toList
  | .blockEnd => "<block end>".toList
  | .flowSequenceStart => ['[']
  | .flowSequenceEnd => [']']
  | .flowMappingStart => ['\x7b']
  | .flowMappingEnd => ['\x7d']
  | .key => ['?']
  | .value => [':']
  | .blockEntry => ['-']
  | .flowEntry => [',']
  | .alias _ => "<alias>".toList
  | .anchor _ => "<anchor>".toList
  | .tag .. => "<tag>".toList
  | .scalar .. => "<scalar>".toList

/-- A token and its place. -/
structure Token where
  kind : TokenKind
  start : Mark
  finish : Mark
  deriving DecidableEq, Repr, Inhabited

end ModernControls.Yaml
