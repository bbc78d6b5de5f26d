/-
Reading bytes as UTF-8, and saying exactly where that fails.

A character takes one to four bytes.  The first byte fixes how many and, for three
and four, narrows what the second may be, so that every code point has one spelling
and surrogates have none.  When the bytes go wrong, the fault names the offset at
which the unreadable character begins and the number of its bytes that were fine, or
says that the text stops in the middle of it.
-/

namespace YamlDelta.Text

/-- Why a sequence of bytes is not UTF-8. -/
inductive Utf8Fault where
  /-- `length` bytes from offset `start` begin no character. -/
  | invalid (length start : Nat)
  /-- The bytes stop inside the character that begins at offset `start`. -/
  | incomplete (start : Nat)
deriving Repr, DecidableEq

/-- The fault in words. -/
def Utf8Fault.message : Utf8Fault → String
  | invalid length start =>
    "invalid utf-8 sequence of " ++ toString length ++ " bytes from index " ++ toString start
  | incomplete start => "incomplete utf-8 byte sequence from index " ++ toString start

/-- A byte `10xxxxxx`, which can only continue a character. -/
def isContinuation (b : UInt8) : Bool :=
  0x80 ≤ b && b ≤ 0xBF

/-- The bytes allowed in second place after a first byte that announces three bytes. -/
def second3 (first b : UInt8) : Bool :=
  isContinuation b && (first != 0xE0 || 0xA0 ≤ b) && (first != 0xED || b ≤ 0x9F)

/-- The bytes allowed in second place after a first byte that announces four bytes. -/
def second4 (first b : UInt8) : Bool :=
  isContinuation b && (first != 0xF0 || 0x90 ≤ b) && (first != 0xF4 || b ≤ 0x8F)

/-- The value that the low six bits of `b` add to `n`. -/
def extend (n : Nat) (b : UInt8) : Nat :=
  n * 64 + b.toNat % 64

/-- Decode the bytes from offset `i` on. -/
def decodeUtf8From (i : Nat) : List UInt8 → Except Utf8Fault (List Char)
  | [] => .ok []
  | b :: bs =>
    if b < 0x80 then
      (Char.ofNat b.toNat :: ·) <$> decodeUtf8From (i + 1) bs
    else if 0xC2 ≤ b && b ≤ 0xDF then
      match bs with
      | [] => .error (.incomplete i)
      | c :: bs =>
        if !isContinuation c then .error (.invalid 1 i)
        else (Char.ofNat (extend (b.toNat % 32) c) :: ·) <$> decodeUtf8From (i + 2) bs
    else if 0xE0 ≤ b && b ≤ 0xEF then
      match bs with
      | [] => .error (.incomplete i)
      | [c] => if second3 b c then .error (.incomplete i) else .error (.invalid 1 i)
      | c :: d :: bs =>
        if !second3 b c then .error (.invalid 1 i)
        else if !isContinuation d then .error (.invalid 2 i)
        else
          (Char.ofNat (extend (extend (b.toNat % 16) c) d) :: ·) <$> decodeUtf8From (i + 3) bs
    else if 0xF0 ≤ b && b ≤ 0xF4 then
      match bs with
      | [] => .error (.incomplete i)
      | [c] => if second4 b c then .error (.incomplete i) else .error (.invalid 1 i)
      | [c, d] =>
        if !second4 b c then .error (.invalid 1 i)
        else if isContinuation d then .error (.incomplete i) else .error (.invalid 2 i)
      | c :: d :: e :: bs =>
        if !second4 b c then .error (.invalid 1 i)
        else if !isContinuation d then .error (.invalid 2 i)
        else if !isContinuation e then .error (.invalid 3 i)
        else
          (Char.ofNat (extend (extend (extend (b.toNat % 8) c) d) e) :: ·) <$>
            decodeUtf8From (i + 4) bs
    else .error (.invalid 1 i)

/-- The text that the bytes spell. -/
def decodeUtf8 (bytes : List UInt8) : Except Utf8Fault String :=
  String.ofList <$> decodeUtf8From 0 bytes

/-- The number of bytes that the characters take in UTF-8. -/
def utf8Length : List Char → Nat
  | [] => 0
  | c :: cs => c.utf8Size + utf8Length cs

/-- ASCII takes one byte a character, so byte and character counts agree on it. -/
theorem utf8Length_of_ascii (cs : List Char) (h : ∀ c ∈ cs, c.utf8Size = 1) :
    utf8Length cs = cs.length := by
  induction cs with
  | nil => rfl
  | cons c cs ih =>
      have h1 := h c List.mem_cons_self
      have h2 := ih fun d hd => h d (List.mem_cons_of_mem c hd)
      simp only [utf8Length, List.length_cons]
      omega

end YamlDelta.Text
