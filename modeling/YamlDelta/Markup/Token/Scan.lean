/-
From a text to its tokens.

One step skips to the next token, closes the block collections that its column ends,
and reads it.  Which token it is shows in its first two characters.  A `:` may turn
what came before it into a key; so a token that may yet become one is held back until
the next tokens have decided, and is handed on after that.

A text can go wrong after some of its tokens have been handed on.  The result of a scan
is therefore the tokens handed on together with the fault that stopped it, if any:
whoever reads the tokens meets the fault only after all of them.
-/
import YamlDelta.Markup.Token.Block
import YamlDelta.Markup.Token.Plain
import YamlDelta.Markup.Token.Property
import YamlDelta.Markup.Token.Quoted
import YamlDelta.Markup.Token.Scanner

namespace YamlDelta.Markup

namespace Scanner

/-! ### Between tokens -/

/-- Read a line break; in a block a key may begin on the next line. -/
def passBreak (s : Scanner) : Scanner :=
  let s := s.withCursor s.cursor.passBreak
  if s.inFlow then s else s.allowKey

/-- Skip blanks, breaks and comments.  In the indentation of a block a tab may stand only on a line
with nothing else on it. -/
def skipGaps : Nat → Scanner → Except Fault Scanner
  | 0, s => .ok s
  | fuel + 1, s =>
    let c := s.cursor.look 1
    let s := s.withCursor c
    if c.head == '\t' && !s.indents.isEmpty && c.atMargin && (c.column : Int) < s.indent then do
      let (_, c) ← c.passInline true
      if isLineEnd c.head then skipGaps fuel (s.withCursor c) else c.fault .blockTab
    else if isBlank c.head then skipGaps fuel (s.withCursor (c.advanceBlank 1))
    else if isBreak c.head then skipGaps fuel s.passBreak
    else if c.head == '#' then skipGaps fuel (s.withCursor c.passLine)
    else .ok s

/-- Skip to the next token. -/
def skipToToken (s : Scanner) : Except Fault Scanner :=
  skipGaps (s.cursor.rest.length + 1) s

/-- Skip spaces, breaks and comments after a `?`, telling whether there was a space or a break. -/
def skipAfterKey : Nat → Bool → Scanner → Bool × Scanner
  | 0, found, s => (found, s)
  | fuel + 1, found, s =>
    let c := s.cursor.look 1
    let s := s.withCursor c
    if c.head == ' ' then skipAfterKey fuel true (s.withCursor (c.advanceBlank 1))
    else if isBreak c.head then skipAfterKey fuel true s.passBreak
    else if c.head == '#' then skipAfterKey fuel found (s.withCursor c.passLine)
    else (found, s)

/-- Read blanks to the end of the line, and a comment. -/
def skipInline (s : Scanner) (tabs : Bool) : Except Fault (Cursor.Blanks × Scanner) := do
  let (found, c) ← s.cursor.passInline tabs
  .ok (found, s.withCursor c)

/-! ### Markers and directives -/

/-- All blocks end here, and no key can begin. -/
def endBlocks (s : Scanner) : Except Fault Scanner := do
  let s ← (s.closeBlocks (-1)).dropKey
  .ok s.disallowKey

/-- The end of the text, which also ends its last line. -/
def fetchStreamEnd (s : Scanner) : Except Fault Scanner := do
  let s := s.withCursor s.cursor.endLine
  if s.keys.any fun k => k.required && k.possible then s.fault .missingKey
  else
    let s := { s with keys := s.keys.map KeyCandidate.withdraw }
    let s ← s.endBlocks
    .ok (s.push s.mark .streamEnd)

def fetchDirective (s : Scanner) : Except Fault Scanner := do
  let s ← s.endBlocks
  let (lexeme, c) ← s.cursor.directive
  .ok ((s.withCursor c).push s.mark lexeme)

/-- A marker of three characters. -/
def fetchMarker (s : Scanner) (lexeme : Lexeme) : Except Fault Scanner := do
  let s ← s.endBlocks
  .ok ((s.withCursor (s.cursor.advance 3)).push s.mark lexeme)

/-- The marker of a document's end must be alone on its line. -/
def fetchDocumentEnd (s : Scanner) : Except Fault Scanner := do
  let s ← s.fetchMarker .documentEnd
  let (_, s) ← s.skipInline true
  if isLineEnd s.cursor.head then .ok s else s.fault .contentAfterDocumentEnd

/-! ### Flow collections -/

def fetchFlowStart (s : Scanner) (lexeme : Lexeme) : Except Fault Scanner := do
  let start := s.mark
  let s ← s.saveKey.openProvisional.openFlow
  let s := s.allowKey.withCursor (s.cursor.advance 1)
  let s := if lexeme == .flowMappingStart then { s with inMapping := true } else s
  let (_, s) ← s.skipInline true
  .ok (s.push start lexeme)

def fetchFlowEnd (s : Scanner) (lexeme : Lexeme) : Except Fault Scanner := do
  let start := s.mark
  let s ← s.dropKey
  let s := s.closeFlow.disallowKey.closePair
  let s := s.withCursor (s.cursor.advance 1)
  let (_, s) ← s.skipInline true
  let s := if s.inFlow then { s with valueAt := s.mark.index } else s
  .ok (s.push start lexeme)

def fetchFlowEntry (s : Scanner) : Except Fault Scanner := do
  let start := s.mark
  let s ← s.dropKey
  let s := s.allowKey.closePair
  let s := s.withCursor (s.cursor.advance 1)
  let (_, s) ← s.skipInline true
  .ok (s.push start .flowEntry)

/-! ### Block collections -/

/-- A `-` at column 0 inside a block, after a property at column 0: the property has no node. -/
def misplacedProperty? (s : Scanner) : Option Mark :=
  match s.lastWaiting? with
  | some t =>
    if t.lexeme.isProperty && s.cursor.column == 0 && t.mark.column == 0 && -1 < s.indent then
      some t.mark
    else none
  | none => none

def fetchBlockEntry (s : Scanner) : Except Fault Scanner := do
  if s.inFlow then s.fault .entryInFlow
  else if !s.keyAllowed then s.fault .entryNotAllowed
  else match s.misplacedProperty? with
    | some m => .error ⟨m, .anchorIndentation⟩
    | none =>
      let start := s.mark
      let s := s.withCursor (s.cursor.advance 1)
      let s := s.openBlock start.column s.tokens.size .blockSequenceStart start
      let (found, s) ← s.skipInline true
      let s := s.withCursor (s.cursor.look 2)
      if found.tab && s.cursor.head == '-' && isGap (s.cursor.peek 1) then s.fault .entryTab
      else
        let (_, s) ← s.skipInline false
        let s := s.withCursor (s.cursor.look 1)
        let next := s.cursor.head
        let s := if isBreak next || isFlow next then s.openProvisional else s
        let s ← s.dropKey
        .ok (s.allowKey.push s.mark .blockEntry)

/-- In a block a key or value that stands alone lets another key begin after it. -/
def allowKeyInBlock (s : Scanner) : Scanner :=
  if s.inFlow then s.disallowKey else s.allowKey

def fetchKey (s : Scanner) : Except Fault Scanner := do
  let start := s.mark
  if !s.inFlow && !s.keyAllowed then s.fault .keyNotAllowed
  else
    let s :=
      if s.inFlow then { s with inMapping := true }
      else s.openBlock start.column s.tokens.size .blockMappingStart start
    let s ← s.dropKey
    let s := s.allowKeyInBlock.withCursor (s.cursor.advance 1)
    let (found, s) := skipAfterKey (s.cursor.rest.length + 1) false s
    if !found then s.fault .missingWhitespace
    else if s.cursor.head == '\t' then s.fault .keyTab
    else .ok (s.push start .key)

/-- Read the blanks after a `:`, where a tab alone does not separate. -/
def skipAfterValue (s : Scanner) : Except Fault Scanner := do
  let s := s.withCursor (s.cursor.look 1)
  if s.cursor.head == '\t' then
    let (found, s) ← s.skipInline true
    if !found.space && isWord s.cursor.head then s.fault .valueTab else .ok s
  else .ok s

/-- The key that a `:` belongs to: put the tokens that make it one in front of it. -/
def makeKey (s : Scanner) (k : KeyCandidate) (colon : Mark) : Except Fault Scanner :=
  let s := s.insert k.number k.mark .key
  if s.inPair && k.mark.line < colon.line then .error ⟨colon, .illegalValue⟩
  else
    let s := if s.inPair then s.insert k.number s.mark .flowMappingStart else s
    let s := (s.openBlock k.mark.column k.number .blockMappingStart colon).openProvisional
    .ok (s.setKey k.withdraw).disallowKey

/-- A `:` whose key is empty or was given by a `?`. -/
def makeValue (s : Scanner) (colon : Mark) : Except Fault Scanner :=
  let s := if s.inPair then s.push s.mark .flowMappingStart else s
  if !s.inFlow && !s.keyAllowed then .error ⟨colon, .valueNotAllowed⟩
  else
    let s := s.openBlock colon.column s.tokens.size .blockMappingStart colon
    .ok s.openProvisional.allowKeyInBlock

def fetchValue (s : Scanner) : Except Fault Scanner := do
  let colon := s.mark
  let k := s.key
  let s := { s with inPair := s.inFlow && !s.inMapping }
  let s ← (s.withCursor (s.cursor.advance 1)).skipAfterValue
  let s ← if k.possible then s.makeKey k colon else s.makeValue colon
  .ok (s.push colon .value)

/-! ### Properties and scalars -/

def fetchAnchor (s : Scanner) (lexeme : String → Lexeme) : Except Fault Scanner := do
  let s := s.saveKey.disallowKey
  let (name, c) ← s.cursor.anchorName
  .ok ((s.withCursor c).push s.mark (lexeme name))

def fetchTag (s : Scanner) : Except Fault Scanner := do
  let s := s.saveKey.disallowKey
  let (lexeme, c) ← s.cursor.tag s.inFlow
  .ok ((s.withCursor c).push s.mark lexeme)

def fetchBlockScalar (s : Scanner) (literal : Bool) : Except Fault Scanner := do
  let s := s.saveKey.allowKey.closeProvisional
  let (mark, text, c) ← s.cursor.blockScalar literal s.indent
  .ok ((s.withCursor c).push mark (.scalar (if literal then .literal else .folded) text))

def fetchQuoted (s : Scanner) (single : Bool) : Except Fault Scanner := do
  let start := s.mark
  let s := s.saveKey.disallowKey
  let (text, c) ← s.cursor.quotedScalar single s.inFlow s.indent
  let s ← (s.withCursor c).skipToToken
  let s := { s with valueAt := s.mark.index }
  .ok (s.push start (.scalar (if single then .singleQuoted else .doubleQuoted) text))

def fetchPlain (s : Scanner) : Except Fault Scanner := do
  let start := s.mark
  let s := s.saveKey.disallowKey.closeProvisional
  let (text, c) ← s.cursor.plainScalar s.inFlow s.indent
  let s := s.withCursor c
  let s := if c.atMargin then s.allowKey else s
  .ok (s.push start (.scalar .plain text))

/-! ### One token -/

/-- Read the token that begins here, which is not a marker. -/
def fetchLexeme (s : Scanner) : Except Fault Scanner :=
  let next := s.cursor.peek 1
  match s.cursor.head with
  | '[' => s.fetchFlowStart .flowSequenceStart
  | '{' => s.fetchFlowStart .flowMappingStart
  | ']' => s.fetchFlowEnd .flowSequenceEnd
  | '}' => s.fetchFlowEnd .flowMappingEnd
  | ',' => s.fetchFlowEntry
  | '-' => if isGap next then s.fetchBlockEntry else s.fetchPlain
  | '?' => if isGap next then s.fetchKey else s.fetchPlain
  | ':' =>
    if isGap next || s.inFlow && (isFlow next || s.mark.index == s.valueAt) then s.fetchValue
    else s.fetchPlain
  | '*' => s.fetchAnchor .alias
  | '&' => s.fetchAnchor .anchor
  | '!' => s.fetchTag
  | '|' => if s.inFlow then s.fetchPlain else s.fetchBlockScalar true
  | '>' => if s.inFlow then s.fetchPlain else s.fetchBlockScalar false
  | '\'' => s.fetchQuoted true
  | '"' => s.fetchQuoted false
  | '%' | '@' | '\x60' => s.fault (.unexpectedCharacter s.cursor.head)
  | _ => s.fetchPlain

/-- Skip to the next token and read it. -/
def fetch (s : Scanner) : Except Fault Scanner := do
  let s := s.withCursor (s.cursor.look 1)
  let s ← s.skipToToken
  let s ← s.dropStaleKeys
  let s := s.closeBlocks s.cursor.column
  let s := s.withCursor (s.cursor.look 4)
  if isEnd s.cursor.head then s.fetchStreamEnd
  else if s.cursor.column == 0 && s.cursor.head == '%' then s.fetchDirective
  else if s.cursor.isMarkerOf '-' then s.fetchMarker .documentStart
  else if s.cursor.isMarkerOf '.' then s.fetchDocumentEnd
  else if (s.cursor.column : Int) < s.indent then s.fault .indentation
  else s.fetchLexeme

end Scanner

/-! ### All tokens -/

/-- The tokens handed on, and the fault that stopped the scan. -/
structure Scan where
  tokens : List Token
  fault : Option Fault

namespace Scan

/-- The result of a scan that goes no further. -/
def stop (s : Scanner) (fault : Option Fault) : Scan :=
  { tokens := (s.tokens.extract 0 s.delivered).toList, fault }

/-- Read tokens and hand them on until the end of the text or a fault.  A token is held back while
it may become a key. -/
def run : Nat → Scanner → Scan
  | 0, s => stop s none
  | fuel + 1, s =>
    let continueWith (r : Except Fault Scanner) : Scan :=
      match r with
      | .error e => stop s (some e)
      | .ok s => run fuel s
    match s.tokens[s.delivered]? with
    | none => continueWith s.fetch
    | some t =>
      match s.dropStaleKeys with
      | .error e => stop s (some e)
      | .ok s =>
        if s.keys.any fun k => k.possible && k.number == s.delivered then continueWith s.fetch
        else
          let s := { s with delivered := s.delivered + 1 }
          if t.lexeme == .streamEnd then stop s none else run fuel s

/-- The tokens of a text.  Every step reads a character or hands on a token, and a character makes
at most a handful of tokens. -/
def ofText (cs : List Char) : Scan :=
  run (8 * cs.length + 16) (.ofText cs)

end Scan

end YamlDelta.Markup
