/-
Three ways of putting a text between quotes.

`singleQuoted` doubles the quotes inside and changes nothing else.  `doubleQuoted`
escapes what would end the text or break the line: the quote, the backslash, and the
three characters that move the cursor.  `quoted` goes further and escapes whatever
cannot be seen on the page, naming it by its code point, so that its result can be
read off a terminal without doubt.

All three are a quote, one piece per character, and a quote.  The piece depends on
the character alone, which is why a text can be recovered from its quoted form by
reading pieces from the left.
-/
import YamlDelta.Text.Visible

namespace YamlDelta.Text

/-! ### The pieces -/

/-- Inside single quotes only the quote itself is written twice. -/
def singlePiece (c : Char) : List Char :=
  if c = '\'' then ['\'', '\''] else [c]

/-- Inside double quotes the quote, the backslash, the tab and the line breaks are escaped. -/
def doublePiece (c : Char) : List Char :=
  if c = '"' then ['\\', '"']
  else if c = '\\' then ['\\', '\\']
  else if c = '\n' then ['\\', 'n']
  else if c = '\t' then ['\\', 't']
  else if c = '\r' then ['\\', 'r']
  else [c]

/-- A character named by its code point in lower-case hexadecimal: `\u{200b}`. -/
def codePoint (c : Char) : List Char :=
  ['\\', 'u', '{'] ++ Nat.toDigits 16 c.toNat ++ ['}']

/-- Like `doublePiece`, with a short escape for NUL and the code point of what is not visible. -/
def visiblePiece (c : Char) : List Char :=
  if c = '\x00' then ['\\', '0']
  else if c = '"' ∨ c = '\\' ∨ c = '\n' ∨ c = '\t' ∨ c = '\r' then doublePiece c
  else if isVisible c then [c]
  else codePoint c

/-! ### The quoted forms -/

/-- The text in single quotes. -/
def singleQuoted (s : String) : String :=
  String.ofList ('\'' :: s.toList.flatMap singlePiece ++ ['\''])

/-- The text in double quotes, on one line. -/
def doubleQuoted (s : String) : String :=
  String.ofList ('"' :: s.toList.flatMap doublePiece ++ ['"'])

/-- The text in double quotes, with every character visible. -/
def quoted (s : String) : String :=
  String.ofList ('"' :: s.toList.flatMap visiblePiece ++ ['"'])

end YamlDelta.Text
