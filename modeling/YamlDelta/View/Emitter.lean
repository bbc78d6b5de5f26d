/-
Nodes as block-style markup.

A node is a block of lines.  An entry of a mapping is its key followed by its value: a
collection with something in it goes below the key and is indented, and anything else
starts on the key's line.  An item of a sequence is set the same way after a hyphen.
Empty collections are `{}` and `[]`, and text that was a block stays one, under a header
that says what becomes of its last line breaks.

A key is written as it is where that reads back as the same key, and in quotes
otherwise.
-/
import YamlDelta.Node.Flow
import YamlDelta.View.Lines
import YamlDelta.View.Palette

namespace YamlDelta.Emitter

/-! ### Keys -/

/-- The characters that mean something at the beginning of a scalar; the last one is the back
quote. -/
def indicators : List Char :=
  ['-', '?', ':', ',', '[', ']', '{', '}', '#', '&', '*', '!', '|', '>', '\'', '"', '%', '@',
    '\x60']

/-- The text contains a character followed by another. -/
def hasPair (a b : Char) : List Char → Bool
  | c :: d :: cs => c == a && d == b || hasPair a b (d :: cs)
  | _ => false

/-- The key would not be read back as the same plain scalar. -/
def needsQuotes (key : String) : Bool :=
  let cs := key.toList
  cs.isEmpty
    || cs.head?.any (fun c => indicators.contains c || Text.isWhitespace c)
    || cs.getLast?.any (fun c => c == ':' || Text.isWhitespace c)
    || hasPair ':' ' ' cs
    || hasPair ' ' '#' cs
    || cs.contains '\n'

/-- A key as it is written. -/
def keyText (key : String) : String :=
  if needsQuotes key then Text.quoted key else key

/-- A key and its colon. -/
def keyLine (p : Palette) (key : String) : String :=
  p.key (keyText key) ++ ":"

/-! ### Scalars -/

/-- The header of a block of text and the text below it.  The header keeps all line breaks at the
end if there are several, and none if there is none. -/
def blockParts (s : String) : String × String :=
  match s.toList.reverse with
  | '\n' :: '\n' :: cs => ("|+", String.ofList ('\n' :: cs).reverse)
  | '\n' :: cs => ("|", String.ofList cs.reverse)
  | _ => ("|-", s)

/-- A block of text. -/
def blockLines (p : Palette) (s : String) : List String :=
  let (header, body) := blockParts s
  header :: Lines.indent 2 ((Lines.ofText body).map (p.value .literal))

/-- A node on one line: a scalar as it was written, anything else in flow style. -/
def inline (p : Palette) : Node → String
  | .scalar (.literal s) _ => Text.quoted s
  | .scalar v place => p.value v.kind place.text
  | n => n.flow

/-! ### Blocks -/

/-- A collection with something in it, which takes lines of its own. -/
def isBlock : Node → Bool
  | .mapping es _ => !es.isEmpty
  | .sequence is _ => !is.isEmpty
  | .scalar _ _ => false

/-- An entry, given the lines of its value. -/
def entry (p : Palette) (key : String) (value : Node) (lines : List String) : List String :=
  if isBlock value then keyLine p key :: Lines.indent 2 lines
  else Lines.lead (keyLine p key ++ " ") lines

/-- An item, given its lines. -/
def item (value : Node) (lines : List String) : List String :=
  if isBlock value then Lines.bullet lines else Lines.lead "- " lines

mutual
/-- The lines of a node on its own. -/
def nodeLines (p : Palette) : Node → List String
  | .mapping es _ => if es.isEmpty then ["\x7b\x7d"] else entriesLines p es
  | .sequence is _ => if is.isEmpty then ["[]"] else itemsLines p is
  | .scalar (.literal s) _ => blockLines p s
  | .scalar v place => [p.value v.kind place.text]
/-- The lines of all entries of a mapping. -/
def entriesLines (p : Palette) : List (String × Node) → List String
  | [] => []
  | (k, n) :: es => entry p k n (nodeLines p n) ++ entriesLines p es
/-- The lines of all items of a sequence. -/
def itemsLines (p : Palette) : List Node → List String
  | [] => []
  | n :: is => item n (nodeLines p n) ++ itemsLines p is
end

/-- The lines of an entry of a mapping. -/
def entryLines (p : Palette) (key : String) (value : Node) : List String :=
  entry p key value (nodeLines p value)

/-- The lines of an item of a sequence. -/
def itemLines (p : Palette) (value : Node) : List String :=
  item value (nodeLines p value)

/-- A scalar that is no block of text takes one line. -/
theorem nodeLines_scalar {v : Scalar} (hv : ∀ s, v ≠ .literal s) (p : Palette) (place : Place) :
    nodeLines p (.scalar v place) = [p.value v.kind place.text] := by
  cases v with
  | literal s => exact absurd rfl (hv s)
  | string s => rfl
  | integer i => rfl
  | float x => rfl
  | bool b => rfl
  | null => rfl

theorem inline_scalar {v : Scalar} (hv : ∀ s, v ≠ .literal s) (palette : Palette) (p : Place) :
    Emitter.inline palette (.scalar v p) = palette.value v.kind p.text := by
  cases v with
  | literal s => exact absurd rfl (hv s)
  | string s => rfl
  | integer i => rfl
  | float x => rfl
  | bool b => rfl
  | null => rfl

theorem entriesLines_eq_flatMap (p : Palette) (es : List (String × Node)) :
    entriesLines p es = es.flatMap fun e => entryLines p e.1 e.2 := by
  induction es with
  | nil => rfl
  | cons e es ih => simp [entriesLines, entryLines, ih]

theorem itemsLines_eq_flatMap (p : Palette) (is : List Node) :
    itemsLines p is = is.flatMap (itemLines p) := by
  induction is with
  | nil => rfl
  | cons n is ih => simp [itemsLines, itemLines, ih]

end YamlDelta.Emitter
