import StackC.Yaml.Character

/-! The tokens of a YAML text. -/
namespace StackC.Yaml

/-- Blocks have tokens for their begin and end, and each key of a mapping has one in front, though
none of them is written. -/
inductive Token
  | streamEnd
  /-- The version of YAML that a text claims. -/
  | version (major minor : Nat)
  /-- A handle of tags and what it stands for. -/
  | handle (name lead : List Char)
  | documentStart
  | documentEnd
  | blockSequenceStart
  | blockMappingStart
  | blockEnd
  | flowSequenceStart
  | flowSequenceEnd
  | flowMappingStart
  | flowMappingEnd
  | blockEntry
  | flowEntry
  | key
  | value
  | anchor (name : List Char)
  /-- A node given by its anchor. -/
  | reference (name : List Char)
  | tag (handle rest : List Char)
  | scalar (text : List Char) (plain : Bool)
  deriving DecidableEq, Repr

end StackC.Yaml
