/-
Walking through a text and counting as one goes.

A cursor stands between the characters read and the characters to come.  It knows its
mark and whether only blanks have been read on this line so far.  It also knows how
many of the characters to come have been looked at already: looking at `n` characters
makes that number at least `n`, and reading one takes one off.  The number has no
influence on what is read.  It is kept because the inside of a block scalar is counted
in two ways: a character that had been looked at moves the mark by one, and the rest of
a line moves it by its length in bytes.

All reading is done by `advance` and `passBreak`; the other functions say how far.
-/
import YamlDelta.Markup.Character
import YamlDelta.Markup.Fault
import YamlDelta.Text.Utf8

namespace YamlDelta.Markup

/-- A place in a text with what follows it. -/
structure Cursor where
  rest : List Char
  /-- How many characters to come have been looked at. -/
  seen : Nat
  mark : Mark
  /-- Only blanks have been read on this line. -/
  atMargin : Bool

namespace Cursor

/-- The cursor at the beginning of a text. -/
def ofText (cs : List Char) : Cursor :=
  { rest := cs, seen := 0, mark := .start, atMargin := true }

/-- The `i`-th character to come, from 0. -/
def peek (c : Cursor) (i : Nat) : Char :=
  c.rest.getD i '\x00'

/-- The next character. -/
def head (c : Cursor) : Char :=
  c.peek 0

def column (c : Cursor) : Nat :=
  c.mark.column

/-- A fault at this place. -/
def fault {α : Type} (c : Cursor) (cause : Cause) : Except Fault α :=
  .error ⟨c.mark, cause⟩

/-- Look at the next `n` characters. -/
def look (n : Nat) (c : Cursor) : Cursor :=
  { c with seen := max c.seen n }

/-! ### Reading -/

/-- Read `n` characters of one line that may be blanks. -/
def advanceBlank (n : Nat) (c : Cursor) : Cursor :=
  { c with
    rest := c.rest.drop n
    seen := c.seen - n
    mark := { c.mark with index := c.mark.index + n, column := c.mark.column + n } }

/-- Read `n` characters of one line, not all of them blanks if there are any. -/
def advance (n : Nat) (c : Cursor) : Cursor :=
  { c.advanceBlank n with atMargin := c.atMargin && n == 0 }

/-- Read one character that ends a line. -/
def advanceBreak (c : Cursor) : Cursor :=
  { rest := c.rest.drop 1
    seen := c.seen - 1
    mark := { index := c.mark.index + 1, line := c.mark.line + 1, column := 0 }
    atMargin := true }

/-- End the line without a break, unless nothing is on it. -/
def endLine (c : Cursor) : Cursor :=
  if c.column == 0 then c
  else { c with mark := { c.mark with line := c.mark.line + 1, column := 0 } }

/-- Read a line break, which may be of two characters, having looked at both. -/
def passBreak (c : Cursor) : Cursor :=
  let c := c.look 2
  if c.head == '\r' && c.peek 1 == '\n' then (c.advanceBlank 1).advanceBreak
  else if isBreak c.head then c.advanceBreak
  else c

/-! ### Reading while a class lasts -/

/-- The characters of the class to come. -/
def run (p : Char → Bool) (c : Cursor) : List Char :=
  c.rest.takeWhile p

/-- Read the characters of a class, looking at `n` before each and after the last. -/
def passWhile (n : Nat) (p : Char → Bool) (c : Cursor) : Cursor :=
  ((c.look n).advance (c.run p).length).look n

/-- Read blanks, looking at one character before each and after the last. -/
def passBlanks (p : Char → Bool) (c : Cursor) : Cursor :=
  ((c.look 1).advanceBlank (c.run p).length).look 1

/-- Read up to the end of the line. -/
def passLine (c : Cursor) : Cursor :=
  c.passWhile 1 fun ch => !isLineEnd ch

/-! ### Blanks and comments -/

/-- Which blanks were read. -/
structure Blanks where
  tab : Bool
  space : Bool

/-- Read blanks to the end of the line, and a comment if one follows them.  Without blanks in front
of it a comment is refused. -/
def passInline (tabs : Bool) (c : Cursor) : Except Fault (Blanks × Cursor) :=
  let p := fun ch => ch == ' ' || tabs && ch == '\t'
  let blanks := c.run p
  let found : Blanks := ⟨blanks.contains '\t', blanks.contains ' '⟩
  let c := c.passBlanks p
  if c.head == '#' then
    if blanks.isEmpty then c.fault .commentNotSeparated else .ok (found, c.passLine)
  else .ok (found, c)

/-! ### Document markers -/

/-- Three characters of one sort at the start of a line, and a gap after them. -/
def isMarkerOf (ch : Char) (c : Cursor) : Bool :=
  c.column == 0 && c.peek 0 == ch && c.peek 1 == ch && c.peek 2 == ch && isGap (c.peek 3)

/-- A document begins or ends here. -/
def isMarker (c : Cursor) : Bool :=
  c.isMarkerOf '-' || c.isMarkerOf '.'

end Cursor

end YamlDelta.Markup
