/-
Scalars in quotes.

Between the quotes, words alternate with white space.  White space on one line stands
for itself.  White space with a line break in it is folded: one break becomes a space,
and of several all but the first remain.  In double quotes a backslash begins an
escape; one at the end of a line swallows the break, so that only the breaks after it
remain.

A quoted scalar may not be cut short by the end of the text or by a document marker,
and its lines may not stick out to the left of the block it is in.
-/
import YamlDelta.Markup.Cursor
import YamlDelta.Markup.Token
import YamlDelta.Markup.Token.Spacing
import YamlDelta.Text.Digit

namespace YamlDelta.Markup

open Text

/-- What a backslash and one character stand for. -/
inductive Escape where
  | character (c : Char)
  /-- So many hexadecimal digits follow and name the character. -/
  | digits (n : Nat)
deriving Repr, DecidableEq

/-- The escapes in double quotes. -/
def Escape.ofChar? : Char → Option Escape
  | '0' => some (.character '\x00')
  | 'a' => some (.character '\x07')
  | 'b' => some (.character '\x08')
  | 't' | '\t' => some (.character '\t')
  | 'n' => some (.character '\n')
  | 'v' => some (.character '\x0b')
  | 'f' => some (.character '\x0c')
  | 'r' => some (.character '\r')
  | 'e' => some (.character '\x1b')
  | ' ' => some (.character ' ')
  | '"' => some (.character '"')
  | '/' => some (.character '/')
  | '\\' => some (.character '\\')
  | 'N' => some (.character '\u0085')
  | '_' => some (.character '\u00a0')
  | 'L' => some (.character '\u2028')
  | 'P' => some (.character '\u2029')
  | 'x' => some (.digits 2)
  | 'u' => some (.digits 4)
  | 'U' => some (.digits 8)
  | _ => none

namespace Cursor

/-- Read an escape.  What is wrong with it is reported where the scalar begins. -/
def escape (start : Mark) (c : Cursor) : Except Fault (Char × Cursor) :=
  match Escape.ofChar? (c.peek 1) with
  | none => .error ⟨start, .escapeUnknown⟩
  | some (.character ch) => .ok (ch, c.advance 2)
  | some (.digits n) =>
    let c := (c.advance 2).look n
    let digits := (List.range n).map c.peek
    if !digits.all isHexDigit then .error ⟨start, .escapeDigits⟩
    else match ofCodePoint? (ofDigits 16 digits) with
      | none => .error ⟨start, .escapeCodePoint⟩
      | some ch => .ok (ch, c.advance n)

/-- Read a word between quotes onto `acc`, the last character first, up to white space or the
closing quote.  Tells whether the word ended in an escaped line break. -/
def quotedWord (single : Bool) (start : Mark) :
    Nat → List Char → Cursor → Except Fault (List Char × Bool × Cursor)
  | 0, acc, c => .ok (acc, false, c)
  | fuel + 1, acc, c =>
    let c := c.look 2
    if isGap c.head then .ok (acc, false, c)
    else if single then
      if c.head == '\'' then
        if c.peek 1 == '\'' then quotedWord single start fuel ('\'' :: acc) (c.advance 2)
        else .ok (acc, false, c)
      else quotedWord single start fuel (c.head :: acc) (c.advance 1)
    else if c.head == '"' then .ok (acc, false, c)
    else if c.head == '\\' then
      if isBreak (c.peek 1) then .ok (acc, true, ((c.look 3).advance 1).passBreak)
      else do
        let (ch, c) ← c.escape start
        quotedWord single start fuel (ch :: acc) c
    else quotedWord single start fuel (c.head :: acc) (c.advance 1)

/-- Read the white space between two words.  After a break no tab may stand where indentation
belongs. -/
def quotedSpacing (indent : Int) :
    Nat → Bool → Spacing → Cursor → Except Fault (Bool × Spacing × Cursor)
  | 0, fresh, s, c => .ok (fresh, s, c)
  | fuel + 1, fresh, s, c =>
    if isBlank c.head then
      if !fresh then
        let s := { s with blanks := c.head :: s.blanks }
        quotedSpacing indent fuel fresh s ((c.advanceBlank 1).look 1)
      else if c.head == '\t' && (c.column : Int) < indent then c.fault .quotedTab
      else quotedSpacing indent fuel fresh s ((c.advanceBlank 1).look 1)
    else if isBreak c.head then
      quotedSpacing indent fuel true (s.addBreak fresh) (c.passBreak.look 1)
    else .ok (fresh, s, c)

/-- Read words and white space onto `acc`, the last character first, up to the closing quote. -/
def quotedBody (single : Bool) (indent : Int) (start : Mark) :
    Nat → List Char → Cursor → Except Fault (List Char × Cursor)
  | 0, acc, c => .ok (acc, c)
  | fuel + 1, acc, c =>
    let c := c.look 4
    if c.isMarker then .error ⟨start, .quotedDocumentMark⟩
    else if isEnd c.head then .error ⟨start, .quotedEnd⟩
    else if (c.column : Int) < indent then .error ⟨start, .quotedIndentation⟩
    else do
      let (acc, escaped, c) ← c.quotedWord single start (c.rest.length + 1) acc
      let c := c.look 1
      if c.head == (if single then '\'' else '"') then .ok (acc, c)
      else
        let (fresh, s, c) ← c.quotedSpacing indent (c.rest.length + 1) escaped .none
        let white := if fresh then s.folded else s.blanks
        quotedBody single indent start fuel (white ++ acc) c

/-- Read a quoted scalar from its opening quote on.  After it the line may end; inside a flow
collection an indicator may follow; and a `:` may follow where the scalar can be a key. -/
def quotedScalar (single inFlow : Bool) (indent : Int) (c : Cursor) :
    Except Fault (String × Cursor) := do
  let start := c.mark
  let c := c.advance 1
  let (acc, c) ← c.quotedBody single indent start (c.rest.length + 1) []
  let (_, c) ← (c.advance 1).passInline true
  let ends := isLineEnd c.head
    || inFlow && (c.head == ',' || c.head == '}' || c.head == ']')
    || c.head == ':' && (inFlow || start.line == c.mark.line)
  if ends then .ok (String.ofList acc.reverse, c) else c.fault .quotedTrailing

end Cursor

end YamlDelta.Markup
