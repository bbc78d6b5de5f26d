/-
Reading a text or bytes as a stream of documents.

Bytes must be UTF-8, the characters must be tokens and events, and the events must be
documents.  The text as a whole is read before its documents are built, so what is
wrong with its markup, wherever it is, is reported rather than an alias to a node that
was not there.
-/
import YamlDelta.Markup.Document
import YamlDelta.Markup.Event.Reader

namespace YamlDelta

/-- Why an input cannot be read. -/
inductive ReadFault where
  | encoding (fault : Text.Utf8Fault)
  | markup (position : Text.Position) (cause : Markup.Cause)
  | malformed (reason : Markup.Malformed)
deriving Repr, DecidableEq

/-- The reason in words. -/
def ReadFault.message : ReadFault → String
  | encoding fault => "input is not valid UTF-8: " ++ fault.message
  | markup p cause =>
    "line " ++ toString p.line ++ ", column " ++ toString p.column ++ ": " ++ cause.message
  | malformed reason => "malformed YAML structure: " ++ reason.message

namespace Stream

/-- The documents of a text given as characters. -/
def ofChars (cs : List Char) (omitted : Markup.Omitted := .empty) : Except ReadFault Stream :=
  let source := Markup.Source.ofText cs
  match Markup.Event.ofText cs omitted with
  | .error fault => .error (.markup (source.position fault.mark) fault.cause)
  | .ok events => (Markup.ofEvents source events).mapError .malformed

/-- The documents of a text. -/
def ofText (s : String) (omitted : Markup.Omitted := .empty) : Except ReadFault Stream :=
  ofChars s.toList omitted

/-- The documents of a text given as bytes. -/
def ofBytes (bytes : List UInt8) : Except ReadFault Stream :=
  match Text.decodeUtf8 bytes with
  | .error fault => .error (.encoding fault)
  | .ok s => ofText s

end Stream

end YamlDelta
