/-
From events to documents.

Nodes are completed from the inside out: a frame for every open collection collects the
parts that are complete, and when the collection ends it becomes a node and a part of
the frame below.  Paths are known from the outside in, though.  The frames below say
where the next node will lie before it is complete, so a node is given its path when it
begins and never changes.

A mapping reads keys and values in turn.  A key is text: a scalar is its own text, and
any other node becomes the text that stands for it.  Anchors remember the nodes they
were set on, keys included, and an alias is a copy of such a node, moved to the path and
the position of the alias.
-/
import YamlDelta.Markup.Event
import YamlDelta.Node.Flow
import YamlDelta.Node.Resolution
import YamlDelta.Text.Position

namespace YamlDelta.Markup

open Text (Position)

/-- The text that events refer to by their marks. -/
structure Source where
  chars : Array Char
  /-- The offsets at which the lines begin. -/
  lines : List Nat

namespace Source

def ofText (cs : List Char) : Source :=
  ⟨cs.toArray, Text.lineStarts cs⟩

/-- The position of a mark. -/
def position (s : Source) (m : Mark) : Position :=
  Text.locate s.lines m.index

end Source

/-- Why events do not form documents. -/
inductive Malformed where
  /-- An alias to a node that is not complete, or was never there. -/
  | unknownAnchor (anchor : Nat)
  | unmatchedEnd
  | mismatchedEnd
  | unterminated
deriving Repr, DecidableEq

/-- The reason in words. -/
def Malformed.message : Malformed → String
  | unknownAnchor n => "alias refers to unknown anchor #" ++ toString n
  | unmatchedEnd => "collection end without a matching start"
  | mismatchedEnd => "mismatched collection end"
  | unterminated => "unterminated collection at end of stream"

/-- The parts of an open collection that are complete. -/
inductive Parts where
  | items (is : Array Node)
  /-- Entries, and a key that waits for its value. -/
  | entries (es : Array (String × Node)) (key : Option String)

/-- An open collection. -/
structure Frame where
  anchor : Option Nat
  position : Position
  path : String
  parts : Parts

/-- The place of the collection when it is complete. -/
def Frame.place (f : Frame) : Place :=
  ⟨"", f.position.line, f.position.column, f.path⟩

/-- What has been built from the events so far. -/
structure Builder where
  documents : Array (Option Node)
  /-- The root of the current document, once it is complete. -/
  root : Option Node
  /-- The open collections, innermost first. -/
  frames : List Frame
  anchors : List (Nat × Node)

namespace Builder

def empty : Builder := ⟨#[], none, [], []⟩

/-- The next node is the key of an entry. -/
def atKey (b : Builder) : Bool :=
  match b.frames with
  | ⟨_, _, _, .entries _ none⟩ :: _ => true
  | _ => false

/-- The path of the next node.  A key has the path of its mapping. -/
def nextPath (b : Builder) : String :=
  match b.frames with
  | [] => ""
  | ⟨_, _, path, .items is⟩ :: _ => Path.index path is.size
  | ⟨_, _, path, .entries _ (some key)⟩ :: _ => Path.key path key
  | ⟨_, _, path, .entries _ none⟩ :: _ => path

/-- Remember a node under an anchor. -/
def remember (anchor : Option Nat) (n : Node) (b : Builder) : Builder :=
  match anchor with
  | none => b
  | some id => { b with anchors := (id, n) :: b.anchors }

/-- A key has been read. -/
def setKey (key : String) (b : Builder) : Builder :=
  match b.frames with
  | ⟨anchor, position, path, .entries es _⟩ :: fs =>
    { b with frames := ⟨anchor, position, path, .entries es (some key)⟩ :: fs }
  | _ => b

/-- Make a complete node a part of the innermost collection, or the root of the document. -/
def attach (n : Node) (b : Builder) : Builder :=
  match b.frames with
  | [] => { b with root := some n }
  | ⟨anchor, position, path, .items is⟩ :: fs =>
    { b with frames := ⟨anchor, position, path, .items (is.push n)⟩ :: fs }
  | ⟨anchor, position, path, .entries es (some key)⟩ :: fs =>
    { b with frames := ⟨anchor, position, path, .entries (es.push (key, n)) none⟩ :: fs }
  | ⟨_, _, _, .entries _ none⟩ :: _ => b.setKey n.keyText

/-- A node is complete. -/
def complete (anchor : Option Nat) (n : Node) (b : Builder) : Builder :=
  (b.remember anchor n).attach n

/-! ### Scalars -/

/-- A plain scalar that stands for nothing: one without characters, or a `~` where the text has
none. -/
def isAbsent (source : Source) (text : String) (style : Style) (mark : Mark) : Bool :=
  style == .plain && (text.isEmpty || text == "~" && source.chars[mark.index]? != some '~')

/-- The value of a scalar, and the text it is shown with. -/
def scalarValue (text : String) (style : Style) (isText isAbsent : Bool) : Scalar × String :=
  match style with
  | .literal | .folded => (.literal text, text)
  | .singleQuoted => (.string text, Text.singleQuoted text)
  | .doubleQuoted => (.string text, Text.doubleQuoted text)
  | .plain =>
    if isText then (.string text, text)
    else if isAbsent then (.null, Scalar.null.canonicalText)
    else (.ofPlain text, text)

/-- A scalar that is not a key.  A document of nothing at all stays absent. -/
def scalar (source : Source) (text : String) (style : Style) (anchor : Option Nat) (isText : Bool)
    (mark : Mark) (b : Builder) : Builder :=
  let absent := !isText && isAbsent source text style mark
  if b.frames.isEmpty && absent then b
  else
    let (value, shown) := scalarValue text style isText absent
    let p := source.position mark
    b.complete anchor (.scalar value ⟨shown, p.line, p.column, b.nextPath⟩)

/-- A scalar that is a key.  An alias to it repeats its text, which has no place of its own. -/
def scalarKey (text : String) (anchor : Option Nat) (b : Builder) : Builder :=
  (b.remember anchor (.ofScalar (.string text) 0 "")).setKey text

/-! ### Aliases and collections -/

/-- Copy the node that an anchor was set on. -/
def copyAnchored (source : Source) (anchor : Nat) (mark : Mark) (b : Builder) :
    Except Malformed Builder :=
  match b.anchors.lookup anchor with
  | none => .error (.unknownAnchor anchor)
  | some n =>
    let p := source.position mark
    let n := (n.withPath b.nextPath).mapPlace fun q => { q with line := p.line, column := p.column }
    .ok (b.complete none n)

/-- Open a collection. -/
def start (source : Source) (anchor : Option Nat) (mark : Mark) (parts : Parts) (b : Builder) :
    Builder :=
  { b with frames := ⟨anchor, source.position mark, b.nextPath, parts⟩ :: b.frames }

/-- Close a sequence. -/
def endSequence (b : Builder) : Except Malformed Builder :=
  match b.frames with
  | [] => .error .unmatchedEnd
  | f :: fs =>
    match f.parts with
    | .items is =>
      .ok ({ b with frames := fs }.complete f.anchor (.sequence is.toList f.place))
    | .entries _ _ => .error .mismatchedEnd

/-- Close a mapping. -/
def endMapping (b : Builder) : Except Malformed Builder :=
  match b.frames with
  | [] => .error .unmatchedEnd
  | f :: fs =>
    match f.parts with
    | .entries es _ =>
      .ok ({ b with frames := fs }.complete f.anchor (.mapping es.toList f.place))
    | .items _ => .error .mismatchedEnd

/-! ### All events -/

/-- What an event does. -/
def step (source : Source) (b : Builder) : Event → Except Malformed Builder
  | .documentStart => .ok { b with root := none }
  | .documentEnd => .ok { b with documents := b.documents.push b.root, root := none }
  | .alias anchor mark => b.copyAnchored source anchor mark
  | .scalar text style anchor isText mark =>
    if b.atKey then .ok (b.scalarKey text anchor)
    else .ok (b.scalar source text style anchor isText mark)
  | .sequenceStart anchor mark => .ok (b.start source anchor mark (.items #[]))
  | .sequenceEnd => b.endSequence
  | .mappingStart anchor mark => .ok (b.start source anchor mark (.entries #[] none))
  | .mappingEnd => b.endMapping

/-- The documents built.  A text without any has one absent document. -/
def stream (b : Builder) : Except Malformed Stream :=
  if !b.frames.isEmpty then .error .unterminated
  else if b.documents.isEmpty then .ok ⟨[none]⟩
  else .ok ⟨b.documents.toList⟩

end Builder

/-- The documents that the events of a text describe. -/
def ofEvents (source : Source) (events : List Event) : Except Malformed Stream := do
  let b ← events.foldlM (Builder.step source) .empty
  b.stream

end YamlDelta.Markup
