/-
JSON values and their texts.

An object is a list of members, written in order, repeated names included.  There are two
texts: the compact one has no white space, the pretty one puts every item and member on
a line of its own, indented by two for each level.  Both agree on strings and numbers.
-/
import YamlDelta.Decimal.Style

namespace YamlDelta

/-- A JSON value. -/
inductive Json where
  | null
  | bool (b : Bool)
  | integer (n : Int)
  | number (x : Binary64)
  | string (s : String)
  | array (items : List Json)
  | object (members : List (String × Json))

namespace Json

/-- Numbers are positional from 0.00001 up to 10^16 and scientific beyond, `1e+16` and `1.5e-7`;
of two shortest decimals equally near, the one with the even last digit is written. -/
def numberStyle : Decimal.Style :=
  { positionalFrom := -5, positionalBelow := 16, plusSign := true, tie := .toEven }

/-- A float; what is not a number of JSON is null. -/
def numberText (x : Binary64) : String :=
  if x.isNaN || x.isInfinite then "null" else numberStyle.text x

/-- A character inside a string.  Only quotes, backslashes and control characters are escaped. -/
def stringPiece (c : Char) : List Char :=
  if c = '"' then ['\\', '"']
  else if c = '\\' then ['\\', '\\']
  else if c = '\n' then ['\\', 'n']
  else if c = '\r' then ['\\', 'r']
  else if c = '\t' then ['\\', 't']
  else if c = '\x08' then ['\\', 'b']
  else if c = '\x0c' then ['\\', 'f']
  else if c.toNat < 0x20 then
    ['\\', 'u', '0', '0', Nat.digitChar (c.toNat / 16), Nat.digitChar (c.toNat % 16)]
  else [c]

/-- A string in quotes. -/
def stringText (s : String) : String :=
  String.ofList ('"' :: s.toList.flatMap stringPiece ++ ['"'])

/-! ### The compact text -/

mutual
/-- The value without white space. -/
def compact : Json → String
  | null => "null"
  | bool b => if b then "true" else "false"
  | integer n => toString n
  | number x => numberText x
  | string s => stringText s
  | array is => "[" ++ ",".intercalate (compactItems is) ++ "]"
  | object ms => "\x7b" ++ ",".intercalate (compactMembers ms) ++ "\x7d"
def compactItems : List Json → List String
  | [] => []
  | j :: js => j.compact :: compactItems js
def compactMembers : List (String × Json) → List String
  | [] => []
  | (k, j) :: ms => (stringText k ++ ":" ++ j.compact) :: compactMembers ms
end

/-! ### The pretty text -/

/-- A line feed and the indentation of a level. -/
def newLine (level : Nat) : String :=
  String.ofList ('\n' :: List.replicate (2 * level) ' ')

/-- Parts on lines of their own between two brackets; without parts the brackets alone. -/
def enclose (before after : String) (level : Nat) (parts : List String) : String :=
  if parts.isEmpty then before ++ after
  else
    before ++ newLine (level + 1) ++ ("," ++ newLine (level + 1)).intercalate parts ++
      newLine level ++ after

mutual
/-- The value at a level of indentation. -/
def prettyAt (level : Nat) : Json → String
  | null => "null"
  | bool b => if b then "true" else "false"
  | integer n => toString n
  | number x => numberText x
  | string s => stringText s
  | array is => enclose "[" "]" level (prettyItems (level + 1) is)
  | object ms => enclose "\x7b" "\x7d" level (prettyMembers (level + 1) ms)
def prettyItems (level : Nat) : List Json → List String
  | [] => []
  | j :: js => j.prettyAt level :: prettyItems level js
def prettyMembers (level : Nat) : List (String × Json) → List String
  | [] => []
  | (k, j) :: ms => (stringText k ++ ": " ++ j.prettyAt level) :: prettyMembers level ms
end

/-- The value on several lines. -/
def pretty (j : Json) : String :=
  j.prettyAt 0

end Json

end YamlDelta
