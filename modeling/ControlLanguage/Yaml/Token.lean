import ControlLanguage.Text.Basic

/-!
# The tokens of a document text

Besides the characters that a reader sees, the tokens of a document text show its **structure by
indentation**: where a block of entries begins and ends, and which scalars are keys.
-/

namespace ControlLanguage

namespace Yaml

/-- A token of a document text. -/
inductive Token where
  | documentStart
  | documentEnd
  | blockListStart
  | blockMapStart
  | blockEnd
  | flowListStart
  | flowListEnd
  | flowMapStart
  | flowMapEnd
  /-- A hyphen before an entry of a block list. -/
  | blockEntry
  /-- A comma. -/
  | flowEntry
  | key
  | value
  | anchor (name : Text)
  | reference (name : Text)
  | scalar (text : Text) (quoted : Bool)
  deriving DecidableEq, Repr

end Yaml

end ControlLanguage
