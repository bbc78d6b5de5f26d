/-
Scalars without quotes.

A plain scalar is words with white space between them, folded like that of a quoted
scalar.  A word goes on until a gap, a `:` that ends a key, or, inside a flow
collection, an indicator of one.  The scalar goes on until a word cannot begin: at a
comment, at a document marker, at a `:` that ends a key, at a line that is not
indented enough.
-/
import YamlDelta.Markup.Cursor
import YamlDelta.Markup.Token
import YamlDelta.Markup.Token.Spacing

namespace YamlDelta.Markup.Cursor

/-- A `:` that ends a key when `next` follows it. -/
def endsKey (inFlow : Bool) (next : Char) : Bool :=
  isGap next || inFlow && isFlow next

/-- `c`, with `next` after it, belongs to a plain word. -/
def isPlain (inFlow : Bool) (c next : Char) : Bool :=
  !isGap c && !(c == ':' && endsKey inFlow next) && !(inFlow && isFlow c)

/-- The plain word at the front of a text. -/
def plainWord (inFlow : Bool) : List Char → List Char
  | [] => []
  | c :: cs => if isPlain inFlow c (cs.headD '\x00') then c :: plainWord inFlow cs else []

/-- What an indented scalar needs to know about its surroundings. -/
structure PlainContext where
  inFlow : Bool
  /-- The column that a line of the scalar must reach. -/
  margin : Int
  start : Mark

/-- Read the white space after a word.  A tab may stand where indentation belongs only on a line
with nothing else on it. -/
def plainSpacing (ctx : PlainContext) : Nat → Spacing → Cursor → Except Fault (Spacing × Cursor)
  | 0, s, c => .ok (s, c)
  | fuel + 1, s, c =>
    let c := c.look 1
    if isBlank c.head then
      if !c.atMargin then
        plainSpacing ctx fuel { s with blanks := c.head :: s.blanks } (c.advanceBlank 1)
      else if c.head == '\t' && (c.column : Int) < ctx.margin then do
        let (_, c) ← c.passInline true
        if isLineEnd c.head then plainSpacing ctx fuel s c else .error ⟨ctx.start, .plainTab⟩
      else plainSpacing ctx fuel s (c.advanceBlank 1)
    else if isBreak c.head then plainSpacing ctx fuel (s.addBreak c.atMargin) c.passBreak
    else .ok (s, c)

/-- Read words onto `acc`, the last character first, with the white space `s` before the next. -/
def plainBody (ctx : PlainContext) :
    Nat → List Char → Spacing → Cursor → Except Fault (List Char × Cursor)
  | 0, acc, _, c => .ok (acc, c)
  | fuel + 1, acc, s, c =>
    let c := c.look 4
    if c.isMarker || c.head == '#' then .ok (acc, c)
    else if ctx.inFlow && c.head == '-' && isFlow (c.peek 1) then c.fault .plainHyphen
    else
      let word := plainWord ctx.inFlow c.rest
      let (acc, s, c) :=
        if word.isEmpty then (acc, s, c)
        else
          let white := if c.atMargin then s.folded else s.blanks
          (word.reverse ++ (white ++ acc), Spacing.none, (c.advance word.length).look 2)
      if isBlank c.head || isBreak c.head then do
        let (s, c) ← c.plainSpacing ctx (c.rest.length + 1) s
        if !ctx.inFlow && (c.column : Int) < ctx.margin then .ok (acc, c)
        else plainBody ctx fuel acc s c
      else .ok (acc, c)

/-- Read a plain scalar in a block of the given indentation. -/
def plainScalar (inFlow : Bool) (indent : Int) (c : Cursor) : Except Fault (String × Cursor) :=
  let ctx : PlainContext := { inFlow, margin := indent + 1, start := c.mark }
  if inFlow && (c.column : Int) < ctx.margin then c.fault .plainIndentation
  else do
    let (acc, c) ← c.plainBody ctx (c.rest.length + 1) [] .none
    .ok (String.ofList acc.reverse, c)

end YamlDelta.Markup.Cursor
