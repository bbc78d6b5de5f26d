/-
From tokens to events.

The reader is a stack of expectations.  The topmost says what may come next, those
below what goes on once that is complete.  Every step looks at one or two tokens, makes
one event, and leaves new expectations.  Where a node may be left out, its absence is
an event as well, which takes no token; but then the next expectation takes one or
fails, so the number of events is bounded by the number of tokens.

Faults of the scan are met when the reader runs out of tokens: a fault of its own that
shows earlier comes first.
-/
import YamlDelta.Markup.Event
import YamlDelta.Markup.Token.Scan

namespace YamlDelta.Markup

/-- What may come next. -/
inductive Expectation where
  /-- A document, whose first marker may be missing. -/
  | implicitDocument
  /-- A document with its marker. -/
  | document
  /-- The content of a document after its marker, which may be missing. -/
  | content
  | documentEnd
  | blockNode
  /-- The first or a further key of a block mapping. -/
  | blockKey (first : Bool)
  | blockValue
  /-- The first or a further entry of a block sequence. -/
  | blockEntry (first : Bool)
  /-- An entry of a sequence at the indentation of the mapping it is in. -/
  | indentlessEntry
  | flowEntry (first : Bool)
  | flowKey (first : Bool)
  | flowValue
  /-- The missing value of a key without `:`. -/
  | flowNoValue
  /-- The key, value and end of a mapping of one pair inside brackets. -/
  | pairKey
  | pairValue
  | pairEnd
deriving Repr, DecidableEq

/-- The state of the reader. -/
structure Reader where
  tokens : List Token
  /-- What is met after the last token. -/
  ending : Fault
  /-- What may come next, and what after that; nothing at the end of the stream. -/
  expected : List Expectation
  /-- The anchors of this document, the latest first. -/
  anchors : List (String × Nat)
  nextAnchor : Nat
  /-- The tag handle that this document declares last. -/
  handle : Option String
  omitted : Omitted

namespace Reader

/-- The reader before the first document. -/
def ofScan (scan : Scan) (omitted : Omitted := .empty) : Reader where
  tokens := scan.tokens.drop 1
  ending := scan.fault.getD ⟨.start, .unexpectedEnd⟩
  expected := [.implicitDocument]
  anchors := []
  nextAnchor := 1
  handle := none
  omitted := omitted

/-- The next token. -/
def peek (r : Reader) : Except Fault Token :=
  match r.tokens with
  | t :: _ => .ok t
  | [] => .error r.ending

/-- Pass the next token. -/
def pass (r : Reader) : Reader :=
  { r with tokens := r.tokens.drop 1 }

/-- What is expected now is replaced by something else. -/
def expect (r : Reader) (e : Expectation) : Reader :=
  { r with expected := e :: r.expected.drop 1 }

/-- What is expected now is complete. -/
def complete (r : Reader) : Reader :=
  { r with expected := r.expected.drop 1 }

/-- A result of one step: the event and the reader after it. -/
abbrev Result := Except Fault (Event × Reader)

/-- A node is left out where the token stands. -/
def absent (r : Reader) (t : Token) : Result :=
  .ok (.absent r.omitted t.mark, r)

/-! ### Nodes -/

/-- Number an anchor. -/
def addAnchor (r : Reader) (name : String) : Nat × Reader :=
  (r.nextAnchor, { r with
    anchors := (name, r.nextAnchor) :: r.anchors, nextAnchor := r.nextAnchor + 1 })

/-- A handle between two exclamation marks, which must be declared; `!!` always is. -/
def mustBeDeclared (handle : String) : Bool :=
  handle != "!!" && 2 ≤ handle.length && handle.toList.getLast? == some '!'

/-- Whether a tag makes its scalar a string. -/
def tagIsText (r : Reader) (mark : Mark) (handle suffix : String) : Except Fault Bool :=
  if mustBeDeclared handle && r.handle != some handle then .error ⟨mark, .tagUndeclared⟩
  else .ok (suffix == "str")

/-- The anchor and the tag of a node. -/
structure Properties where
  anchor : Option Nat
  /-- Whether there is a tag, and whether it makes a scalar a string. -/
  tag : Option Bool

/-- Read an anchor and a tag, in either order. -/
def properties (r : Reader) : Except Fault (Properties × Reader) := do
  let t ← r.peek
  match t.lexeme with
  | .anchor name =>
    let (id, r) := r.pass.addAnchor name
    let u ← r.peek
    match u.lexeme with
    | .tag handle suffix =>
      let isText ← r.tagIsText t.mark handle suffix
      .ok (⟨some id, some isText⟩, r.pass)
    | _ => .ok (⟨some id, none⟩, r)
  | .tag handle suffix =>
    let isText ← r.tagIsText t.mark handle suffix
    let r := r.pass
    let u ← r.peek
    match u.lexeme with
    | .anchor name =>
      let (id, r) := r.pass.addAnchor name
      .ok (⟨some id, some isText⟩, r)
    | _ => .ok (⟨none, some isText⟩, r)
  | _ => .ok (⟨none, none⟩, r)

/-- Read the content of a node, or the beginning of a collection.  With properties it may be left
out, and then it has no characters however other nodes are reported. -/
def nodeContent (block indentless : Bool) (p : Properties) (r : Reader) : Result := do
  let t ← r.peek
  let missing : Result :=
    if p.anchor.isSome || p.tag.isSome then
      .ok (.scalar "" .plain p.anchor (p.tag.getD false) t.mark, r.complete)
    else .error ⟨t.mark, .missingContent⟩
  match t.lexeme with
  | .blockEntry =>
    if indentless then .ok (.sequenceStart p.anchor t.mark, r.expect .indentlessEntry) else missing
  | .scalar style text =>
    .ok (.scalar text style p.anchor (p.tag.getD false) t.mark, r.pass.complete)
  | .flowSequenceStart => .ok (.sequenceStart p.anchor t.mark, r.expect (.flowEntry true))
  | .flowMappingStart => .ok (.mappingStart p.anchor t.mark, r.expect (.flowKey true))
  | .blockSequenceStart =>
    if block then .ok (.sequenceStart p.anchor t.mark, r.expect (.blockEntry true)) else missing
  | .blockMappingStart =>
    if block then .ok (.mappingStart p.anchor t.mark, r.expect (.blockKey true)) else missing
  | _ => missing

/-- Read a node, in place of what is expected now. -/
def node (block indentless : Bool) (r : Reader) : Result := do
  let t ← r.peek
  match t.lexeme with
  | .alias name =>
    match r.anchors.find? (·.1 == name) with
    | some (_, id) => .ok (.alias id t.mark, r.pass.complete)
    | none => .error ⟨t.mark, .unknownAnchor⟩
  | _ =>
    let (p, r) ← r.properties
    r.nodeContent block indentless p

/-- Read a node, and go on as expected after it. -/
def nodeThen (after : Expectation) (block indentless : Bool) (r : Reader) : Result :=
  let r := r.expect after
  { r with expected := .blockNode :: r.expected }.node block indentless

/-! ### Documents -/

/-- Read directives.  Each one replaces what the one before it has declared. -/
def directives (r : Reader) : List Token → Bool → Except Fault Reader
  | t :: ts, versioned =>
    match t.lexeme with
    | .versionDirective =>
      if versioned then .error ⟨t.mark, .duplicateVersion⟩
      else { r with tokens := ts, handle := none }.directives ts true
    | .tagDirective handle _ =>
      { r with tokens := ts, handle := some handle }.directives ts versioned
    | _ => .ok r
  | [], _ => .error r.ending

/-- Begin a document: forget the anchors of the last one. -/
def begin (after : Expectation) (r : Reader) : Event × Reader :=
  let r := r.expect .documentEnd
  (.documentStart, { r with expected := after :: r.expected, anchors := [] })

/-- Read directives and the marker after them. -/
def explicitDocument (r : Reader) : Result := do
  let r ← r.directives r.tokens false
  let t ← r.peek
  if t.lexeme == .documentStart then .ok (r.pass.begin .content)
  else .error ⟨t.mark, .missingDocumentStart⟩

/-- Pass the markers of documents that have ended. -/
def passDocumentEnds (r : Reader) : Reader :=
  { r with tokens := r.tokens.dropWhile (·.lexeme == .documentEnd) }

/-- Begin a document, or end the stream, which makes no event. -/
def nextDocument (implicit : Bool) (r : Reader) : Except Fault (Option Event × Reader) := do
  let r := r.passDocumentEnds
  let explicit : Except Fault (Option Event × Reader) := do
    let (e, r) ← r.explicitDocument
    .ok (some e, r)
  let t ← r.peek
  match t.lexeme with
  | .streamEnd => .ok (none, { r.pass with expected := [] })
  | .versionDirective | .tagDirective _ _ | .documentStart => explicit
  | _ =>
    if implicit then
      let (e, r) := r.begin .blockNode
      .ok (some e, r)
    else explicit

/-- Read the content of a document after its marker. -/
def documentContent (r : Reader) : Result := do
  let t ← r.peek
  match t.lexeme with
  | .versionDirective | .tagDirective _ _ | .documentStart | .documentEnd | .streamEnd =>
    r.complete.absent t
  | _ => r.node true false

/-- End a document.  Only after its end marker may directives or a document without marker
follow. -/
def documentEnd (r : Reader) : Result := do
  let t ← r.peek
  let r := { r with handle := none }
  match t.lexeme with
  | .documentEnd => .ok (.documentEnd, r.pass.expect .implicitDocument)
  | .versionDirective | .tagDirective _ _ => .error ⟨t.mark, .missingDocumentEnd⟩
  | _ => .ok (.documentEnd, r.expect .document)

/-! ### Block collections -/

/-- After the indicator of a key or value of a block mapping: a node, or none if the mapping goes on
or ends. -/
def blockPart (after : Expectation) (r : Reader) : Result := do
  let t ← r.peek
  match t.lexeme with
  | .key | .value | .blockEnd => (r.expect after).absent t
  | _ => r.nodeThen after true true

def blockKey (first : Bool) (r : Reader) : Result := do
  let r := if first then r.pass else r
  let t ← r.peek
  match t.lexeme with
  | .key => r.pass.blockPart .blockValue
  | .value => (r.expect .blockValue).absent t
  | .blockEnd => .ok (.mappingEnd, r.pass.complete)
  | _ => .error ⟨t.mark, .missingMappingKey⟩

def blockValue (r : Reader) : Result := do
  let t ← r.peek
  match t.lexeme with
  | .value => r.pass.blockPart (.blockKey false)
  | _ => (r.expect (.blockKey false)).absent t

def blockEntry (first : Bool) (r : Reader) : Result := do
  let r := if first then r.pass else r
  let t ← r.peek
  match t.lexeme with
  | .blockEnd => .ok (.sequenceEnd, r.pass.complete)
  | .blockEntry =>
    let r := r.pass
    let t ← r.peek
    match t.lexeme with
    | .blockEntry | .blockEnd => (r.expect (.blockEntry false)).absent t
    | _ => r.nodeThen (.blockEntry false) true false
  | _ => .error ⟨t.mark, .missingSequenceEntry⟩

def indentlessEntry (r : Reader) : Result := do
  let t ← r.peek
  match t.lexeme with
  | .blockEntry =>
    let r := r.pass
    let t ← r.peek
    match t.lexeme with
    | .blockEntry | .key | .value | .blockEnd => (r.expect .indentlessEntry).absent t
    | _ => r.nodeThen .indentlessEntry true false
  | _ => .ok (.sequenceEnd, r.complete)

/-! ### Flow collections -/

/-- Read an entry of a flow sequence after its separator.  An explicit key begins a mapping of one
pair. -/
def flowItem (r : Reader) : Result := do
  let t ← r.peek
  match t.lexeme with
  | .flowSequenceEnd => .ok (.sequenceEnd, r.pass.complete)
  | .key => .ok (.mappingStart none t.mark, r.pass.expect .pairKey)
  | _ => r.nodeThen (.flowEntry false) false false

def flowEntry (first : Bool) (r : Reader) : Result := do
  if first then r.pass.flowItem
  else
    let t ← r.peek
    match t.lexeme with
    | .flowSequenceEnd => .ok (.sequenceEnd, r.pass.complete)
    | .flowEntry => r.pass.flowItem
    | _ => .error ⟨t.mark, .missingFlowSequenceEnd⟩

def pairKey (r : Reader) : Result := do
  let t ← r.peek
  match t.lexeme with
  | .value | .flowEntry | .flowSequenceEnd => (r.pass.expect .pairValue).absent t
  | _ => r.nodeThen .pairValue false false

def pairValue (r : Reader) : Result := do
  let t ← r.peek
  match t.lexeme with
  | .value =>
    let r := r.pass
    let t ← r.peek
    match t.lexeme with
    | .flowEntry | .flowSequenceEnd => (r.expect .pairEnd).absent t
    | _ => r.nodeThen .pairEnd false false
  | _ => (r.expect .pairEnd).absent t

def pairEnd (r : Reader) : Result :=
  .ok (.mappingEnd, r.expect (.flowEntry false))

/-- Read a key of a flow mapping after its separator. -/
def flowPair (r : Reader) : Result := do
  let t ← r.peek
  match t.lexeme with
  | .key =>
    let r := r.pass
    let t ← r.peek
    match t.lexeme with
    | .value | .flowEntry | .flowMappingEnd => (r.expect .flowValue).absent t
    | _ => r.nodeThen .flowValue false false
  | .value => (r.expect .flowValue).absent t
  | .flowMappingEnd => .ok (.mappingEnd, r.pass.complete)
  | _ => r.nodeThen .flowNoValue false false

def flowKey (first : Bool) (r : Reader) : Result := do
  if first then r.pass.flowPair
  else
    let t ← r.peek
    match t.lexeme with
    | .flowMappingEnd => .ok (.mappingEnd, r.pass.complete)
    | .flowEntry => r.pass.flowPair
    | _ => .error ⟨t.mark, .missingFlowMappingEnd⟩

def flowValue (r : Reader) : Result := do
  let t ← r.peek
  match t.lexeme with
  | .value =>
    let r := r.pass
    let u ← r.peek
    match u.lexeme with
    | .flowEntry | .flowMappingEnd => (r.expect (.flowKey false)).absent t
    | _ => r.nodeThen (.flowKey false) false false
  | _ => (r.expect (.flowKey false)).absent t

def flowNoValue (r : Reader) : Result := do
  let t ← r.peek
  (r.expect (.flowKey false)).absent t

/-! ### Steps -/

/-- Make the next event, as the topmost expectation says. -/
def step (r : Reader) : Expectation → Except Fault (Option Event × Reader)
  | .implicitDocument => r.nextDocument true
  | .document => r.nextDocument false
  | .content => some' r.documentContent
  | .documentEnd => some' r.documentEnd
  | .blockNode => some' (r.node true false)
  | .blockKey first => some' (r.blockKey first)
  | .blockValue => some' r.blockValue
  | .blockEntry first => some' (r.blockEntry first)
  | .indentlessEntry => some' r.indentlessEntry
  | .flowEntry first => some' (r.flowEntry first)
  | .flowKey first => some' (r.flowKey first)
  | .flowValue => some' r.flowValue
  | .flowNoValue => some' r.flowNoValue
  | .pairKey => some' r.pairKey
  | .pairValue => some' r.pairValue
  | .pairEnd => some' r.pairEnd
where
  some' (result : Result) : Except Fault (Option Event × Reader) :=
    (fun (e, r) => (some e, r)) <$> result

/-- All events until nothing more is expected. -/
def events : Nat → Reader → Except Fault (List Event)
  | 0, _ => .ok []
  | fuel + 1, r =>
    match r.expected with
    | [] => .ok []
    | e :: _ => do
      let (event, r) ← r.step e
      let rest ← r.events fuel
      .ok (event.toList ++ rest)

end Reader

/-- The events of a scan.  A token takes part in a handful of events. -/
def Event.ofScan (scan : Scan) (omitted : Omitted := .empty) : Except Fault (List Event) :=
  (Reader.ofScan scan omitted).events (8 * scan.tokens.length + 16)

/-- The events of a text. -/
def Event.ofText (cs : List Char) (omitted : Omitted := .empty) : Except Fault (List Event) :=
  Event.ofScan (Scan.ofText cs) omitted

end YamlDelta.Markup
