/-
Block scalars: text taken line by line.

The header says whether the line breaks at the end are kept, and perhaps how far the
lines are indented.  If it does not, the first line with text does, and it may not be
indented less than the empty lines before it.  Then every line is taken as it stands,
less its indentation, as long as the lines reach the indentation.

In a literal block each break is kept.  In a folded one a break between two lines that
both begin with text becomes a space, or vanishes if empty lines follow it; next to a
line that begins with a blank it is kept.

Inside a line the mark moves in two ways.  Characters that had been looked at count one
each, and those beyond count their bytes, so a long line of wide characters shifts all
marks after it.
-/
import YamlDelta.Markup.Cursor
import YamlDelta.Markup.Token
import YamlDelta.Text.Digit

namespace YamlDelta.Markup

/-- What becomes of the line breaks at the end of a block scalar. -/
inductive Chomping where
  /-- None is kept. -/
  | strip
  /-- The first is kept. -/
  | clip
  /-- All are kept. -/
  | keep
deriving Repr, DecidableEq

/-- What the header of a block scalar says. -/
structure BlockHeader where
  chomping : Chomping
  /-- The indentation relative to the surrounding block, if given. -/
  increment : Option Nat
deriving Repr, DecidableEq

namespace Cursor

/-! ### The header -/

/-- The chomping indicator that a character is. -/
def chomping? (ch : Char) : Option Chomping :=
  if ch == '+' then some .keep else if ch == '-' then some .strip else none

/-- Read an indentation indicator, if one stands here.  It may not be 0. -/
def increment (start : Mark) (c : Cursor) : Except Fault (Option Nat × Cursor) :=
  let c := c.look 1
  if c.head == '0' then .error ⟨start, .blockZero⟩
  else if c.head.isDigit then .ok (some (Text.digitValue c.head), c.advance 1)
  else .ok (none, c)

/-- Read the two indicators in either order. -/
def blockHeader (start : Mark) (c : Cursor) : Except Fault (BlockHeader × Cursor) := do
  let c := c.look 1
  match chomping? c.head with
  | some chomping =>
    let (n, c) ← (c.advance 1).increment start
    .ok (⟨chomping, n⟩, c)
  | none =>
    let (n, c) ← c.increment start
    match n with
    | none => .ok (⟨.clip, none⟩, c)
    | some _ =>
      let c := c.look 1
      match chomping? c.head with
      | some chomping => .ok (⟨chomping, n⟩, c.advance 1)
      | none => .ok (⟨.clip, n⟩, c)

/-! ### Indentation -/

/-- How many characters are looked at in one go at the beginning of a line. -/
def window : Nat := 16

/-- Read up to `n` spaces of indentation, looking at a window of characters again whenever it has
been used up. -/
def passIndent : Nat → Nat → Cursor → Cursor
  | 0, _, c => c
  | fuel + 1, column, c =>
    let c := c.look window
    let spaces := (c.run (· == ' ')).length
    let n := min (min spaces (column - c.column)) c.seen
    let c := c.advanceBlank n
    if c.column == column || c.seen != 0 && c.head != ' ' then c
    else passIndent fuel column c

/-- Read the indentation of a line, which reaches up to the given column. -/
def passIndentation (column : Nat) (c : Cursor) : Cursor :=
  if column < window - 2 then
    let c := c.look window
    c.advanceBlank (min (c.run (· == ' ')).length (column - c.column))
  else (c.passIndent (column + 1) column).look 2

/-- Read empty lines and the indentation of the next line, counting the breaks read. -/
def passEmptyLines (column : Nat) : Nat → Nat → Cursor → Nat × Cursor
  | 0, breaks, c => (breaks, c)
  | fuel + 1, breaks, c =>
    let c := c.passIndentation column
    if isBreak c.head then passEmptyLines column fuel (breaks + 1) c.passBreak
    else (breaks, c)

/-- Read empty lines and spaces up to the first text, counting the breaks read, and find the
largest column that was reached. -/
def passToText : Nat → Nat → Nat → Cursor → Nat × Nat × Cursor
  | 0, breaks, widest, c => (breaks, widest, c)
  | fuel + 1, breaks, widest, c =>
    let c := c.passBlanks (· == ' ')
    let widest := max widest c.column
    if isBreak c.head then passToText fuel (breaks + 1) widest c.passBreak
    else (breaks, widest, c)

/-! ### The lines -/

/-- Read the rest of a line of content. -/
def contentLine (c : Cursor) : List Char × Cursor :=
  let line := c.run fun ch => !isLineEnd ch
  let known := min line.length c.seen
  let d := c.advanceBlank known
  if d.seen != 0 then (line, d)
  else
    let bytes := Text.utf8Length (line.drop known)
    let rest := d.rest.drop (line.length - known)
    (line, { d with
      rest
      seen := if rest.isEmpty then 0 else 1
      mark := { d.mark with index := d.mark.index + bytes, column := d.mark.column + bytes } })

/-- The state of reading the lines of a block scalar. -/
structure BlockText where
  /-- What has been read, the last character first. -/
  acc : List Char
  /-- A line has been read and its break is still to be decided on. -/
  broken : Bool
  /-- The number of empty lines after it. -/
  empties : Nat
  /-- The last line began with a blank. -/
  blankBefore : Bool

namespace BlockText

/-- The breaks before a line that begins with a blank or not. -/
def joint (literal : Bool) (t : BlockText) (blank : Bool) : List Char :=
  if !literal && t.broken && !t.blankBefore && !blank then
    if t.empties == 0 then [' '] else List.replicate t.empties '\n'
  else List.replicate (t.empties + if t.broken then 1 else 0) '\n'

/-- Append a line. -/
def addLine (literal : Bool) (t : BlockText) (blank : Bool) (line : List Char) : BlockText :=
  { acc := line.reverse ++ (t.joint literal blank ++ t.acc)
    broken := false, empties := 0, blankBefore := blank }

end BlockText

/-- Read lines of content as long as they reach the column. -/
def blockLines (literal : Bool) (column : Nat) : Nat → BlockText → Cursor → BlockText × Cursor
  | 0, t, c => (t, c)
  | fuel + 1, t, c =>
    if c.column != column || isEnd c.head then (t, c)
    else
      let c := if column == 0 then c.look 4 else c
      if column == 0 && c.isMarkerOf '.' then (t, c)
      else
        let blank := isBlank c.head
        let (line, c) := c.contentLine
        let t := t.addLine literal blank line
        let c := c.look 2
        if isEnd c.head then (t, c)
        else
          let (empties, c) := c.passBreak.passEmptyLines column (c.rest.length + 1) 0
          blockLines literal column fuel { t with broken := true, empties } c

/-- The text of a block scalar that ended before a line of content.  Without a line break after the
header it is empty. -/
def blockWithoutLines (chomping : Chomping) (sameLine : Bool) (empties : Nat) : List Char :=
  if sameLine then []
  else match chomping with
    | .strip => []
    | .clip => ['\n']
    | .keep => List.replicate (max 1 empties) '\n'

/-- The text of a block scalar, the last character first, with its final breaks.  A last line that
the end of the text cut short counts as if it had a break, if it is indented at all. -/
def blockEnd (chomping : Chomping) (column : Nat) (t : BlockText) (c : Cursor) : List Char :=
  let closing :=
    (if t.broken then 1 else 0) + if isEnd c.head && max column 1 ≤ c.column then 1 else 0
  match chomping with
  | .strip => t.acc
  | .clip => List.replicate closing '\n' ++ t.acc
  | .keep => List.replicate (closing + t.empties) '\n' ++ t.acc

/-- Read a block scalar from its indicator on, in a block of the given indentation.  Its mark is
where its first line of content begins, or the indicator if there is none. -/
def blockScalar (literal : Bool) (indent : Int) (c : Cursor) :
    Except Fault (Mark × String × Cursor) := do
  let start := c.mark
  let (header, c) ← (c.advance 1).blockHeader start
  let (_, c) ← c.passInline true
  if !isLineEnd c.head then .error ⟨start, .blockHeader⟩
  else
    let c := (if isBreak c.head then c.passBreak else c).look 1
    if c.head == '\t' then .error ⟨start, .blockContentTab⟩
    else
      let (empties, column, c) := match header.increment with
        | some n =>
          let column := if 0 ≤ indent then indent.toNat + n else n
          let (empties, c) := c.passEmptyLines column (c.rest.length + 1) 0
          (empties, column, c)
        | none =>
          let (empties, widest, c) := c.passToText (c.rest.length + 1) 0 0
          let column := max widest (indent + 1).toNat
          (empties, if 0 < indent then max column 1 else column, c)
      if isEnd c.head then
        let text := blockWithoutLines header.chomping (c.mark.line == start.line) empties
        .ok (start, String.ofList text, c)
      else if c.column < column && indent < c.column then c.fault .blockIndentation
      else
        let mark := c.mark
        let (t, c) := c.blockLines literal column (c.rest.length + 1) ⟨[], false, empties, false⟩
        .ok (mark, String.ofList (blockEnd header.chomping column t c).reverse, c)

end Cursor

end YamlDelta.Markup
