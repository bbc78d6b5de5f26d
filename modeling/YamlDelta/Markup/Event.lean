/-
Events: what the tokens of a text say, in order.

Documents, sequences and mappings begin and end, and between a beginning and its end
come the events of the parts: the items of a sequence, the keys and values of a mapping
in turn, the one node of a document.  Anchors are numbered from 1 over the whole text,
so that a name that is used again names something new.

A node that the text leaves out is there as an event too: a plain scalar at the mark of
whatever comes instead.  The program runs with a reader that gives it no characters, so
that a key that is left out is the empty key.  The builder is written for a reader that
reports a `~`, the way null is written, unless the node has an anchor or a tag.  Which of
the two it is is a parameter of the reading.
-/
import YamlDelta.Markup.Token

namespace YamlDelta.Markup

/-- One step in the reading of a stream of documents. -/
inductive Event where
  | documentStart
  | documentEnd
  /-- The node that an anchor stands for. -/
  | alias (anchor : Nat) (mark : Mark)
  /-- A scalar; `isText` says that its tag makes it a string. -/
  | scalar (text : String) (style : Style) (anchor : Option Nat) (isText : Bool) (mark : Mark)
  | sequenceStart (anchor : Option Nat) (mark : Mark)
  | sequenceEnd
  | mappingStart (anchor : Option Nat) (mark : Mark)
  | mappingEnd
deriving Repr, DecidableEq

/-- How a node is reported that is left out and has neither an anchor nor a tag. -/
inductive Omitted where
  /-- As a scalar with no characters. -/
  | empty
  /-- As a `~`. -/
  | tilde
deriving Repr, DecidableEq

/-- The text of such a node. -/
def Omitted.text : Omitted → String
  | empty => ""
  | tilde => "~"

/-- A node that is left out. -/
def Event.absent (omitted : Omitted) (mark : Mark) : Event :=
  .scalar omitted.text .plain none false mark

end YamlDelta.Markup
