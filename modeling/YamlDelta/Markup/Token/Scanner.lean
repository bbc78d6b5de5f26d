/-
What the scanner remembers between tokens.

Three things go beyond the cursor.  The *indents* are the columns of the open block
collections, innermost first; closing one makes a token.  Some of them are only
provisional: they say that what follows must be indented by one more column, and end
without a token.  The *keys* are the places, one for every open flow collection and one
for the block level, where a token stands that a later `:` would turn into a key.
And the tokens themselves are kept, numbered from the beginning, because a key is
inserted before a token that is already there; `delivered` says how many can no longer
change and have been handed on.
-/
import YamlDelta.Markup.Cursor
import YamlDelta.Markup.Token

namespace YamlDelta.Markup

/-- An open indentation: the one it replaced, and whether closing it makes a token. -/
structure Indent where
  former : Int
  isBlock : Bool
deriving Repr, DecidableEq

/-- A token that a `:` may turn into a key. -/
structure KeyCandidate where
  possible : Bool
  /-- The indentation leaves nothing else for the token to be. -/
  required : Bool
  /-- The number of the token. -/
  number : Nat
  mark : Mark
deriving Repr, DecidableEq

/-- No candidate. -/
def KeyCandidate.none : KeyCandidate := ⟨false, false, 0, ⟨0, 0, 0⟩⟩

/-- The token is no key after all. -/
def KeyCandidate.withdraw (k : KeyCandidate) : KeyCandidate := { k with possible := false }

/-- The state of the scanner. -/
structure Scanner where
  cursor : Cursor
  tokens : Array Token
  delivered : Nat
  /-- The column of the innermost open indentation, -1 if there is none. -/
  indent : Int
  indents : List Indent
  /-- The number of open flow collections. -/
  depth : Nat
  /-- A key may begin here. -/
  keyAllowed : Bool
  keys : List KeyCandidate
  /-- The index at which a `:` ends a key whatever follows it. -/
  valueAt : Nat
  /-- The entries here belong to a flow mapping with braces. -/
  inMapping : Bool
  /-- A pair inside brackets is open that makes a mapping of its own. -/
  inPair : Bool

namespace Scanner

/-- The scanner at the beginning of a text, where it has made its first token. -/
def ofText (cs : List Char) : Scanner where
  cursor := (Cursor.ofText cs).look 1
  tokens := #[⟨.start, .streamStart⟩]
  delivered := 0
  indent := -1
  indents := []
  depth := 0
  keyAllowed := true
  keys := [.none]
  valueAt := 0
  inMapping := false
  inPair := false

def mark (s : Scanner) : Mark := s.cursor.mark

def inFlow (s : Scanner) : Bool := s.depth != 0

def withCursor (s : Scanner) (c : Cursor) : Scanner := { s with cursor := c }

def fault {α : Type} (s : Scanner) (cause : Cause) : Except Fault α :=
  s.cursor.fault cause

/-! ### Tokens -/

/-- Append a token. -/
def push (s : Scanner) (mark : Mark) (lexeme : Lexeme) : Scanner :=
  { s with tokens := s.tokens.push ⟨mark, lexeme⟩ }

/-- Insert a token before the one with the given number. -/
def insert (s : Scanner) (number : Nat) (mark : Mark) (lexeme : Lexeme) : Scanner :=
  { s with tokens := s.tokens.insertIdxIfInBounds number ⟨mark, lexeme⟩ }

/-- The last token, if it has not been handed on. -/
def lastWaiting? (s : Scanner) : Option Token :=
  if s.delivered < s.tokens.size then s.tokens.back? else none

/-! ### Keys -/

def allowKey (s : Scanner) : Scanner := { s with keyAllowed := true }

def disallowKey (s : Scanner) : Scanner := { s with keyAllowed := false }

/-- The candidate at the level of the cursor. -/
def key (s : Scanner) : KeyCandidate :=
  s.keys.headD .none

/-- Replace the candidate at the level of the cursor. -/
def setKey (s : Scanner) (k : KeyCandidate) : Scanner :=
  { s with keys := k :: s.keys.drop 1 }

/-- The next token may turn out to be a key, if one is allowed here. -/
def saveKey (s : Scanner) : Scanner :=
  if s.keyAllowed then
    s.setKey
      { possible := true
        required := !s.inFlow && s.indent == s.cursor.column
          && (s.indents.head?.map (·.isBlock)).getD false
        number := s.tokens.size
        mark := s.mark }
  else s

/-- The candidate at this level is no key after all.  One that had to be is missed. -/
def dropKey (s : Scanner) : Except Fault Scanner :=
  if s.key.possible && s.key.required then s.fault .missingKey
  else .ok (s.setKey s.key.withdraw)

/-- A key of a block must end on its line, and within 1024 characters. -/
def isStale (now : Mark) (k : KeyCandidate) : Bool :=
  k.possible && (k.mark.line < now.line || k.mark.index + 1024 < now.index)

/-- Drop the candidates that have become too old, none of which may have been required. -/
def dropStaleKeys (s : Scanner) : Except Fault Scanner :=
  if s.inFlow then .ok s
  else if s.keys.any fun k => isStale s.mark k && k.required then s.fault .staleKey
  else .ok { s with
    keys := s.keys.map fun k => if isStale s.mark k then k.withdraw else k }

/-! ### Indentation -/

/-- Open a block collection at a column, unless one is open there.  Its first token goes before the
token with the given number. -/
def openBlock (s : Scanner) (column : Nat) (number : Nat) (lexeme : Lexeme) (mark : Mark) :
    Scanner :=
  if s.inFlow then s
  else
    let s := match s.indents with
      | i :: is =>
        if s.indent ≤ (column : Int) && !i.isBlock then
          { s with indent := i.former, indents := is }
        else s
      | [] => s
    if s.indent < (column : Int) then
      { s with indent := (column : Int), indents := ⟨s.indent, true⟩ :: s.indents }.insert number
        mark lexeme
    else s

/-- Close indentations down to a column, given the open ones. -/
def closeTo (column : Int) (s : Scanner) : List Indent → Scanner
  | [] => s
  | i :: is =>
    if column < s.indent then
      let s := { s with indent := i.former, indents := is }
      closeTo column (if i.isBlock then s.push s.mark .blockEnd else s) is
    else s

/-- Close the block collections to the right of a column. -/
def closeBlocks (s : Scanner) (column : Int) : Scanner :=
  if s.inFlow then s else closeTo column s s.indents

/-- What follows must be indented by one more column than the open block. -/
def openProvisional (s : Scanner) : Scanner :=
  match s.indents with
  | i :: _ =>
    if !s.inFlow && i.isBlock then
      { s with indent := s.indent + 1, indents := ⟨s.indent, false⟩ :: s.indents }
    else s
  | [] => s

/-- Drop provisional indentations, given the open ones. -/
def dropProvisional (s : Scanner) : List Indent → Scanner
  | [] => s
  | i :: is =>
    if i.isBlock then s else dropProvisional { s with indent := i.former, indents := is } is

/-- Go back to the indentation of the innermost block. -/
def closeProvisional (s : Scanner) : Scanner :=
  dropProvisional s s.indents

/-! ### Flow collections -/

/-- The greatest number of flow collections inside each other. -/
def maxDepth : Nat := 255

/-- Open a flow collection. -/
def openFlow (s : Scanner) : Except Fault Scanner :=
  if s.depth < maxDepth then .ok { s with depth := s.depth + 1, keys := .none :: s.keys }
  else s.fault .nestingTooDeep

/-- Close a flow collection, if one is open. -/
def closeFlow (s : Scanner) : Scanner :=
  if s.inFlow then { s with depth := s.depth - 1, keys := s.keys.drop 1 } else s

/-- Close a pair that made a mapping of its own. -/
def closePair (s : Scanner) : Scanner :=
  if s.inPair then { s with inPair := false, inMapping := false }.push s.mark .flowMappingEnd
  else s

end Scanner

end YamlDelta.Markup
