/-
Reading JSON text.

The reader keeps apart what a later stage may want to tell apart: a number stays the
text it was written as, so that `1` is not `1.0`, and a string whose escapes name half a
character has no text, which only matters to someone who asks for it.  Everything else
follows the standard to the letter: no leading zeros, no trailing commas, no raw control
characters, and nothing but white space after the value.
-/
import YamlDelta.Json.Value
import YamlDelta.Text.Digit

namespace YamlDelta.Json

open Text

/-- A JSON value as it was written. -/
inductive Raw where
  | null
  | bool (b : Bool)
  | number (digits : List Char)
  /-- A string, if its escapes name whole characters. -/
  | string (text : Option String)
  | array (items : List Raw)
  | object (members : List (Option String × Raw))

namespace Raw

def isSpace (c : Char) : Bool :=
  c == ' ' || c == '\n' || c == '\t' || c == '\r'

def skipSpace (cs : List Char) : List Char :=
  cs.dropWhile isSpace

/-! ### Strings -/

/-- What the escape letters stand for. -/
def escapes : List (Char × Char) :=
  [('"', '"'), ('\\', '\\'), ('/', '/'), ('b', '\x08'), ('f', '\x0c'), ('n', '\n'), ('r', '\r'),
    ('t', '\t')]

/-- The code units of a string up to its closing quote, characters outside escapes as they are, and
what follows the quote. -/
def units : List Char → Option (List Nat × List Char)
  | '"' :: cs => some ([], cs)
  | '\\' :: 'u' :: a :: b :: c :: d :: cs =>
    if [a, b, c, d].all isHexDigit then do
      let (us, rest) ← units cs
      some (ofDigits 16 [a, b, c, d] :: us, rest)
    else none
  | '\\' :: e :: cs => do
    let c ← escapes.lookup e
    let (us, rest) ← units cs
    some (c.toNat :: us, rest)
  | c :: cs =>
    if c.toNat < 0x20 then none else do
      let (us, rest) ← units cs
      some (c.toNat :: us, rest)
  | [] => none

/-- Join the halves of characters that were escaped in two.  A half on its own is no character. -/
def characters : List Nat → Option (List Char)
  | [] => some []
  | u :: us =>
    match ofCodePoint? u with
    | some c => (c :: ·) <$> characters us
    | none =>
      match us with
      | v :: vs =>
        if 0xD800 ≤ u && u < 0xDC00 && 0xDC00 ≤ v && v < 0xE000 then
          (Char.ofNat (0x10000 + (u - 0xD800) * 0x400 + (v - 0xDC00)) :: ·) <$> characters vs
        else none
      | [] => none

/-- Read a string after its opening quote. -/
def readString (cs : List Char) : Option (Option String × List Char) := do
  let (us, rest) ← units cs
  some (String.ofList <$> characters us, rest)

/-! ### Numbers -/

/-- Take digits, of which there must be one. -/
def readDigits (cs : List Char) : Option (List Char × List Char) :=
  match cs.span Char.isDigit with
  | ([], _) => none
  | (ds, rest) => some (ds, rest)

/-- The whole part: a zero, or digits that do not begin with one. -/
def readWhole : List Char → Option (List Char × List Char)
  | '0' :: cs => some (['0'], cs)
  | cs => readDigits cs

/-- The fraction, if there is a point. -/
def readFraction : List Char → Option (List Char × List Char)
  | '.' :: cs => do
    let (ds, rest) ← readDigits cs
    some ('.' :: ds, rest)
  | cs => some ([], cs)

/-- The exponent, if there is an `e`. -/
def readExponent : List Char → Option (List Char × List Char)
  | c :: cs =>
    if c == 'e' || c == 'E' then
      match cs with
      | s :: cs' =>
        if s == '+' || s == '-' then do
          let (ds, rest) ← readDigits cs'
          some (c :: s :: ds, rest)
        else do
          let (ds, rest) ← readDigits cs
          some (c :: ds, rest)
      | [] => none
    else some ([], c :: cs)
  | [] => some ([], [])

/-- Read a number without its sign. -/
def readUnsigned (cs : List Char) : Option (List Char × List Char) := do
  let (whole, cs) ← readWhole cs
  let (fraction, cs) ← readFraction cs
  let (exponent, cs) ← readExponent cs
  some (whole ++ fraction ++ exponent, cs)

/-- Read a number. -/
def readNumber : List Char → Option (Raw × List Char)
  | '-' :: cs => do
    let (ds, rest) ← readUnsigned cs
    some (.number ('-' :: ds), rest)
  | cs => do
    let (ds, rest) ← readUnsigned cs
    some (.number ds, rest)

/-! ### Values -/

mutual
/-- Read a value, white space before it included. -/
def readValue : Nat → List Char → Option (Raw × List Char)
  | 0, _ => none
  | fuel + 1, cs =>
    match skipSpace cs with
    | 'n' :: 'u' :: 'l' :: 'l' :: rest => some (.null, rest)
    | 't' :: 'r' :: 'u' :: 'e' :: rest => some (.bool true, rest)
    | 'f' :: 'a' :: 'l' :: 's' :: 'e' :: rest => some (.bool false, rest)
    | '"' :: rest => do
      let (s, rest) ← readString rest
      some (.string s, rest)
    | '[' :: rest =>
      match skipSpace rest with
      | ']' :: rest => some (.array [], rest)
      | _ => do
        let (is, rest) ← readItems fuel rest
        some (.array is, rest)
    | '{' :: rest =>
      match skipSpace rest with
      | '}' :: rest => some (.object [], rest)
      | _ => do
        let (ms, rest) ← readMembers fuel rest
        some (.object ms, rest)
    | cs => readNumber cs
/-- Read items and the closing bracket. -/
def readItems : Nat → List Char → Option (List Raw × List Char)
  | 0, _ => none
  | fuel + 1, cs => do
    let (i, rest) ← readValue fuel cs
    match skipSpace rest with
    | ',' :: rest =>
      let (is, rest) ← readItems fuel rest
      some (i :: is, rest)
    | ']' :: rest => some ([i], rest)
    | _ => none
/-- Read members and the closing brace. -/
def readMembers : Nat → List Char → Option (List (Option String × Raw) × List Char)
  | 0, _ => none
  | fuel + 1, cs =>
    match skipSpace cs with
    | '"' :: rest => do
      let (name, rest) ← readString rest
      match skipSpace rest with
      | ':' :: rest =>
        let (v, rest) ← readValue fuel rest
        match skipSpace rest with
        | ',' :: rest =>
          let (ms, rest) ← readMembers fuel rest
          some ((name, v) :: ms, rest)
        | '}' :: rest => some ([(name, v)], rest)
        | _ => none
      | _ => none
    | _ => none
end

/-- The value that a text consists of.  Reading spends a character on each level and each part, so
the length of the text bounds both. -/
def ofText? (s : String) : Option Raw :=
  match readValue (2 * s.toList.length + 1) s.toList with
  | some (v, rest) => if (skipSpace rest).isEmpty then some v else none
  | none => none

end Raw

end YamlDelta.Json
