/-
The character classes of the markup.

The end of the text counts as a character, NUL, that stands behind the last one as often
as it is asked for.  A NUL in the text itself therefore ends it.
-/

namespace YamlDelta.Markup

/-- The end of the text. -/
def isEnd (c : Char) : Bool := c == '\x00'

/-- A line break. -/
def isBreak (c : Char) : Bool := c == '\n' || c == '\r'

/-- A space or a tab. -/
def isBlank (c : Char) : Bool := c == ' ' || c == '\t'

/-- Where a line ends. -/
def isLineEnd (c : Char) : Bool := isBreak c || isEnd c

/-- Where a word ends. -/
def isGap (c : Char) : Bool := isBlank c || isLineEnd c

/-- The characters with a meaning inside brackets and braces. -/
def isFlow (c : Char) : Bool :=
  c == ',' || c == '[' || c == ']' || c == '{' || c == '}'

/-- Letters, digits, the underscore and the hyphen, of ASCII. -/
def isWord (c : Char) : Bool :=
  c.isAlphanum || c == '_' || c == '-'

/-- The characters of a tag between angle brackets. -/
def isUri (c : Char) : Bool :=
  isWord c || "#;/?:@&=+$,_.!~*'()[]%".toList.contains c

/-- The characters of a tag on its own: those that mean nothing in a flow collection. -/
def isTag (c : Char) : Bool :=
  isUri c && !isFlow c && c != '!'

/-- The characters of an anchor's name: all but gaps, flow indicators and the byte order mark. -/
def isAnchor (c : Char) : Bool :=
  !isGap c && !isFlow c && c != '\ufeff'

end YamlDelta.Markup
