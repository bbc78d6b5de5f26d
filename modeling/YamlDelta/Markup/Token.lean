/-
Tokens: the words and brackets of the markup.

Half of the tokens stand for characters of the text.  The other half stand for
indentation: a block collection has no brackets, so its beginning and end are tokens
that no character shows, and so is the key that a `:` turns the text before it into.
-/
import YamlDelta.Markup.Fault

namespace YamlDelta.Markup

/-- How a scalar is written. -/
inductive Style where
  | plain
  | singleQuoted
  | doubleQuoted
  /-- A block whose line breaks are kept. -/
  | literal
  /-- A block whose line breaks are folded. -/
  | folded
deriving Repr, DecidableEq

/-- What a token is. -/
inductive Lexeme where
  | streamStart
  | streamEnd
  | versionDirective
  | tagDirective (handle expansion : String)
  | documentStart
  | documentEnd
  | blockSequenceStart
  | blockMappingStart
  | blockEnd
  | flowSequenceStart
  | flowSequenceEnd
  | flowMappingStart
  | flowMappingEnd
  | blockEntry
  | flowEntry
  | key
  | value
  | alias (name : String)
  | anchor (name : String)
  | tag (handle suffix : String)
  | scalar (style : Style) (text : String)
deriving Repr, DecidableEq

/-- A lexeme and where it begins. -/
structure Token where
  mark : Mark
  lexeme : Lexeme
deriving Repr, DecidableEq

/-- An anchor or a tag, which belong to the node after them. -/
def Lexeme.isProperty : Lexeme → Bool
  | anchor _ | tag _ _ => true
  | _ => false

end YamlDelta.Markup
