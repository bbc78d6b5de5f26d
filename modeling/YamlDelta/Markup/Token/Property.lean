/-
Anchors, aliases, tags and directives.

These begin with an indicator and go on as long as the characters of their class do.
What is wrong with a tag or a directive is reported where it begins, however far one
had to read to find out.

Inside tags a percent sign and two digits give an octet, and the octets of one
character follow each other.  They are put together as they stand, eight bits each, so
only an escaped ASCII character and some escaped pairs name a character at all.
-/
import YamlDelta.Markup.Cursor
import YamlDelta.Markup.Token
import YamlDelta.Text.Digit

namespace YamlDelta.Markup.Cursor

open Text

/-! ### Anchors and aliases -/

/-- Read the name after `&` or `*`, and the indicator itself. -/
def anchorName (c : Cursor) : Except Fault (String × Cursor) :=
  let d := c.advance 1
  let name := d.run isAnchor
  if name.isEmpty then c.fault .emptyAnchor
  else .ok (String.ofList name, d.passWhile 1 isAnchor)

/-! ### Escapes in tags -/

/-- Read one octet of an escape. -/
def octet (start : Mark) (c : Cursor) : Except Fault (Nat × Cursor) :=
  let c := c.look 3
  if c.head == '%' && isHexDigit (c.peek 1) && isHexDigit (c.peek 2) then
    .ok (ofDigits 16 [c.peek 1, c.peek 2], c.advance 3)
  else .error ⟨start, .tagEscape⟩

/-- Read the octets that continue a character. -/
def trailingOctets (start : Mark) : Nat → Nat → Cursor → Except Fault (Nat × Cursor)
  | 0, code, c => .ok (code, c)
  | n + 1, code, c => do
    let (o, c) ← c.octet start
    if 0x80 ≤ o && o < 0xC0 then trailingOctets start n (code * 256 + o) c
    else .error ⟨start, .tagTrailingOctet⟩

/-- How many octets follow a leading one. -/
def octetsAfter? (o : Nat) : Option Nat :=
  if o < 0x80 then some 0
  else if o < 0xC0 then none
  else if o < 0xE0 then some 1
  else if o < 0xF0 then some 2
  else if o < 0xF8 then some 3
  else none

/-- Read an escaped character. -/
def escapedOctets (start : Mark) (c : Cursor) : Except Fault (Char × Cursor) := do
  let (o, c) ← c.octet start
  match octetsAfter? o with
  | none => .error ⟨start, .tagLeadingOctet⟩
  | some n =>
    let (code, c) ← trailingOctets start n o c
    match ofCodePoint? code with
    | none => .error ⟨start, .tagCodePoint⟩
    | some ch => .ok (ch, c)

/-- Read characters of a class of tag characters, escapes among them, onto `acc`, the last one
first. -/
def uriRun (start : Mark) (p : Char → Bool) :
    Nat → List Char → Cursor → Except Fault (List Char × Cursor)
  | 0, acc, c => .ok (acc, c)
  | fuel + 1, acc, c =>
    let c := c.look 1
    if p c.head then
      if c.head == '%' then do
        let (ch, c) ← c.escapedOctets start
        uriRun start p fuel (ch :: acc) c
      else uriRun start p fuel (c.head :: acc) (c.advance 1)
    else .ok (acc, c)

/-- Read all characters of a class of tag characters. -/
def uri (start : Mark) (p : Char → Bool) (c : Cursor) : Except Fault (List Char × Cursor) := do
  let (acc, c) ← uriRun start p (c.rest.length + 1) [] c
  .ok (acc.reverse, c)

/-! ### Tags -/

/-- Read a tag handle: `!`, word characters, and the closing `!` if there is one.  In a directive
the closing `!` may be missing only from the handle `!`. -/
def tagHandle (directive : Bool) (start : Mark) (c : Cursor) :
    Except Fault (List Char × Cursor) :=
  let c := c.look 1
  if c.head != '!' then .error ⟨start, .tagMark⟩
  else
    let c := c.advance 1
    let word := c.run isWord
    let c := c.passWhile 1 isWord
    if c.head == '!' then .ok ('!' :: word ++ ['!'], c.advance 1)
    else if directive && !word.isEmpty then .error ⟨start, .tagHandleEnd⟩
    else .ok ('!' :: word, c)

/-- Read the tag in angle brackets, from its `!` on. -/
def verbatimTag (start : Mark) (c : Cursor) : Except Fault (Lexeme × Cursor) := do
  let (text, c) ← (c.advance 2).uri start isUri
  if c.head == '>' then .ok (.tag "" (String.ofList text), c.advance 1)
  else .error ⟨start, .tagVerbatimEnd⟩

/-- Read a tag of a handle and a suffix.  If the handle does not close, its letters begin the
suffix of the handle `!`; the tag `!` alone is its own suffix. -/
def shorthandTag (start : Mark) (c : Cursor) : Except Fault (Lexeme × Cursor) := do
  let (handle, c) ← c.tagHandle false start
  let (suffix, c) ← c.uri start isTag
  if 2 ≤ handle.length && handle.getLast? == some '!' then
    if suffix.isEmpty then .error ⟨start, .tagSuffix⟩
    else .ok (.tag (String.ofList handle) (String.ofList suffix), c)
  else
    let suffix := handle.drop 1 ++ suffix
    if suffix.isEmpty then .ok (.tag "" "!", c)
    else .ok (.tag "!" (String.ofList suffix), c)

/-- Read a tag.  A gap must follow it, or a flow indicator inside a flow collection. -/
def tag (inFlow : Bool) (c : Cursor) : Except Fault (Lexeme × Cursor) := do
  let start := c.mark
  let c := c.look 2
  let (lexeme, c) ← if c.peek 1 == '<' then c.verbatimTag start else c.shorthandTag start
  let c := c.look 1
  if isGap c.head || inFlow && isFlow c.head then .ok (lexeme, c)
  else .error ⟨start, .tagEnd⟩

/-! ### Directives -/

/-- Read a part of a version number. -/
def versionPart (start : Mark) (c : Cursor) : Except Fault Cursor :=
  let digits := c.run Char.isDigit
  if 9 < digits.length then .error ⟨start, .versionTooLong⟩
  else if digits.isEmpty then .error ⟨start, .versionNumber⟩
  else .ok (c.passWhile 1 Char.isDigit)

/-- Read the two parts of a version number. -/
def versionDirective (start : Mark) (c : Cursor) : Except Fault (Lexeme × Cursor) := do
  let c ← (c.passBlanks isBlank).versionPart start
  if c.head != '.' then .error ⟨start, .versionPoint⟩
  else
    let c ← (c.advance 1).versionPart start
    .ok (.versionDirective, c)

/-- Read what a tag handle stands for: a local one begins with `!`, a global one with a tag
character. -/
def tagExpansion (start : Mark) (c : Cursor) : Except Fault (List Char × Cursor) :=
  let c := c.look 1
  if c.head == '!' then do
    let (text, c) ← (c.advance 1).uri start isUri
    .ok ('!' :: text, c)
  else if isTag c.head then c.uri start isUri
  else .error ⟨start, .tagGlobal⟩

/-- Read a handle and what it stands for. -/
def tagDirective (start : Mark) (c : Cursor) : Except Fault (Lexeme × Cursor) := do
  let (handle, c) ← (c.passBlanks isBlank).tagHandle true start
  let (expansion, c) ← (c.passBlanks isBlank).tagExpansion start
  let c := c.look 1
  if isGap c.head then
    .ok (.tagDirective (String.ofList handle) (String.ofList expansion), c)
  else .error ⟨start, .tagDirectiveEnd⟩

/-- Read the name of a directive. -/
def directiveName (c : Cursor) : Except Fault (List Char × Cursor) :=
  let name := c.run isWord
  let d := c.passWhile 1 isWord
  if name.isEmpty then c.fault .directiveName
  else if isGap d.head then .ok (name, d)
  else c.fault .directiveNameEnd

/-- Read a directive and its line.  One of an unknown name counts as the declaration of nothing. -/
def directive (c : Cursor) : Except Fault (Lexeme × Cursor) := do
  let start := c.mark
  let (name, c) ← (c.advance 1).directiveName
  let (lexeme, c) ←
    if name == "YAML".toList then c.versionDirective start
    else if name == "TAG".toList then c.tagDirective start
    else .ok (.tagDirective "" "", c.passLine)
  let (_, c) ← c.passInline true
  if isLineEnd c.head then .ok (lexeme, c.passBreak)
  else .error ⟨start, .directiveEnd⟩

end YamlDelta.Markup.Cursor
