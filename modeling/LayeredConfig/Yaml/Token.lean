/-! # Tokens

What a text consists of once its indentation is made explicit: a block ends with a token of its own, and
a key carries a mark also where none is written.
-/
namespace LayeredConfig.Yaml

inductive Token where
  | version (major minor : Nat)
  | tagHandle (handle start : List Char)
  | documentStart
  | documentEnd
  | sequenceStart
  | mappingStart
  | blockEnd
  | flowSequenceStart
  | flowSequenceEnd
  | flowMappingStart
  | flowMappingEnd
  | sequenceEntry
  | flowEntry
  | key
  | value
  | alias (name : List Char)
  | anchor (name : List Char)
  | tag (handle rest : List Char)
  | scalar (text : List Char) (bare : Bool)

end LayeredConfig.Yaml
