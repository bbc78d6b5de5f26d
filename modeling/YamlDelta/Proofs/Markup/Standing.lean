/-
Where a scanner stands between two tokens.

In block style a scanner that has settled is described by a few things: the columns of the
open blocks, the column it has come to, what comes next, and the tokens so far.  `Standing`
lists them.  One more case is a scanner that has read what will turn out to be a key
(`AtColon`), and another one that is inside empty brackets or braces (`Inside`).

These are the stages that a scan in block style goes through.  Beside them are the two things a
scanner does between tokens, whatever the tokens are: it skips to the next one, and it closes
the blocks that end there.
-/
import YamlDelta.Proofs.Markup.Delivery
import YamlDelta.Proofs.Markup.Literal
import YamlDelta.Proofs.Markup.Plain

namespace YamlDelta.Markup

/-! ### Open blocks -/

/-- The column of the innermost open block. -/
def level : List Nat → Int
  | [] => -1
  | d :: _ => d

/-- The indentations of the blocks that are open at these columns, innermost first. -/
def levels : List Nat → List Indent
  | [] => []
  | _ :: S => ⟨level S, true⟩ :: levels S

/-- The indentation, which may be provisional. -/
def indentOf (S : List Nat) (provisional : Bool) : Int :=
  if provisional then level S + 1 else level S

def indentsOf (S : List Nat) (provisional : Bool) : List Indent :=
  if provisional then ⟨level S, false⟩ :: levels S else levels S

theorem neg_one_le_level (S : List Nat) : -1 ≤ level S := by
  cases S with
  | nil => exact Int.le_refl _
  | cons d S =>
      show (-1 : Int) ≤ d
      omega

theorem ne_zero_of_inside {S : List Nat} {d : Nat} (hS : S ≠ []) (hd : level S < d) : d ≠ 0 := by
  cases S with
  | nil => exact absurd rfl hS
  | cons e S =>
      have hlt : (e : Int) < d := hd
      omega

/-- The blocks that are still open at a column. -/
def openAt (column : Int) (S : List Nat) : List Nat :=
  S.dropWhile fun d : Nat => decide (column < d)

/-- A token for every block that ends before a column. -/
def ends (column : Int) (S : List Nat) : List Lexeme :=
  List.replicate (S.takeWhile fun d : Nat => decide (column < d)).length .blockEnd

/-- The lexemes of a scanner's tokens. -/
def Scanner.lexemes (s : Scanner) : List Lexeme :=
  s.tokens.toList.map Token.lexeme

namespace Scanner

variable {s s' : Scanner}

@[simp] theorem lexemes_push (s : Scanner) (m : Mark) (l : Lexeme) :
    (s.push m l).lexemes = s.lexemes ++ [l] := by
  simp [lexemes, push]

theorem insertIdx_append {α : Type} (xs ys : List α) (x : α) :
    (xs ++ ys).insertIdx xs.length x = xs ++ x :: ys := by
  induction xs with
  | nil => rfl
  | cons y xs ih => simp [ih]

theorem tokens_insert {xs ys : List Token} (h : s.tokens.toList = xs ++ ys) (m : Mark)
    (l : Lexeme) : (s.insert xs.length m l).tokens.toList = xs ++ ⟨m, l⟩ :: ys := by
  have hle : xs.length ≤ s.tokens.size := by
    rw [← Array.length_toList, h, List.length_append]
    exact Nat.le_add_right _ _
  unfold insert Array.insertIdxIfInBounds
  rw [dif_pos hle, Array.toList_insertIdx, h, insertIdx_append]

theorem lexemes_insert {xs ys : List Lexeme} (h : s.lexemes = xs ++ ys) (m : Mark) (l : Lexeme) :
    (s.insert xs.length m l).lexemes = xs ++ l :: ys := by
  obtain ⟨as, bs, heq, rfl, rfl⟩ := List.map_eq_append_iff.mp h
  rw [List.length_map, lexemes, tokens_insert heq, List.map_append, List.map_cons]

theorem size_tokens (s : Scanner) : s.tokens.size = s.lexemes.length := by
  rw [lexemes, List.length_map, Array.length_toList]

/-! ### Depth and keys -/

theorem inFlow_eq_false (h : s.depth = 0) : s.inFlow = false := by
  rw [inFlow, h]
  rfl

theorem key_of_keys {k : KeyCandidate} {ks : List KeyCandidate} (h : s.keys = k :: ks) :
    s.key = k := by
  rw [key, h]
  rfl

/-- What need not be a key can be dropped. -/
theorem dropKey_eq {k : KeyCandidate} {ks : List KeyCandidate} (h : s.keys = k :: ks)
    (hk : (k.possible && k.required) = false) :
    s.dropKey = .ok { s with keys := k.withdraw :: ks } := by
  rw [dropKey, key_of_keys h, hk, if_neg Bool.false_ne_true, setKey, h]
  rfl

/-! ### Closing blocks -/

/-- What closing blocks changes. -/
structure Closed (column : Int) (S : List Nat) (s s' : Scanner) : Prop where
  lexemes : s'.lexemes = s.lexemes ++ ends column S
  frame : s' = { s with
    indent := level (openAt column S), indents := levels (openAt column S), tokens := s'.tokens }

theorem closeTo_levels (column : Int) {S : List Nat} (h : s.indent = level S)
    (h' : s.indents = levels S) : Closed column S s (closeTo column s (levels S)) := by
  induction S generalizing s with
  | nil =>
      refine ⟨(List.append_nil _).symm, ?_⟩
      show s = { s with indent := level [], indents := levels [] }
      rw [← h, ← h']
  | cons d S ih =>
      rw [levels, closeTo]
      split
      · rename_i hlt
        have hd : column < d := by
          rw [h] at hlt
          exact hlt
        obtain ⟨hlexemes, hframe⟩ :=
          ih (s := Scanner.push { s with indent := level S, indents := levels S } s.mark .blockEnd)
            rfl rfl
        have hopen : openAt column (d :: S) = openAt column S :=
          List.dropWhile_cons_of_pos (by simpa using hd)
        have hends : ends column (d :: S) = .blockEnd :: ends column S := by
          rw [ends, List.takeWhile_cons_of_pos (by simpa using hd)]
          rfl
        refine ⟨?_, ?_⟩
        · rw [hends, List.append_cons]
          refine hlexemes.trans ?_
          rw [lexemes_push]
          rfl
        · rw [hopen]
          exact hframe
      · rename_i hle
        have hd : ¬column < d := by
          rw [h] at hle
          exact hle
        have hopen : openAt column (d :: S) = d :: S :=
          List.dropWhile_cons_of_neg (by simpa using hd)
        have hends : ends column (d :: S) = [] := by
          rw [ends, List.takeWhile_cons_of_neg (by simpa using hd)]
          rfl
        refine ⟨by rw [hends, List.append_nil], ?_⟩
        rw [hopen, ← h, ← h']

/-- The blocks close that end before a column; a provisional indentation goes with them, if the
column is not inside it. -/
theorem closeBlocks_levels {column : Int} {S : List Nat} {provisional : Bool} (hdepth : s.depth = 0)
    (h : s.indent = indentOf S provisional) (h' : s.indents = indentsOf S provisional)
    (hcolumn : column ≤ level S) : Closed column S s (s.closeBlocks column) := by
  rw [closeBlocks, inFlow_eq_false hdepth, if_neg Bool.false_ne_true, h']
  cases provisional with
  | false => exact closeTo_levels column h h'
  | true =>
      have hlt : column < s.indent := by
        rw [h]
        exact Int.lt_add_one_iff.mpr hcolumn
      rw [indentsOf, if_pos rfl, closeTo, if_pos hlt]
      obtain ⟨hlexemes, hframe⟩ :=
        closeTo_levels column (s := { s with indent := level S, indents := levels S }) rfl rfl
      exact ⟨hlexemes, hframe⟩

/-- Nothing closes at a column inside all blocks. -/
theorem closeBlocks_inside {column : Int} (h : s.indent ≤ column) : s.closeBlocks column = s := by
  rw [closeBlocks]
  split
  · rfl
  · cases hindents : s.indents with
    | nil => rfl
    | cons i is =>
        rw [closeTo, if_neg (by omega)]

/-! ### Skipping to the next token -/

/-- A token begins here, or the text ends. -/
def Stops (r : List Char) : Prop :=
  Cursor.Starts r ∧ r.head? ≠ some '#'

theorem stops_cons {ch : Char} {r : List Char} (h : isGap ch = false) (hcomment : ch ≠ '#') :
    Stops (ch :: r) :=
  ⟨Cursor.starts_cons h, fun heq => hcomment (Option.some.inj heq)⟩

theorem stops_nil : Stops [] :=
  ⟨⟨rfl, rfl⟩, nofun⟩

theorem head_ne_of_head? {c : Cursor} {r : List Char} {ch : Char} (hc : c.rest = r)
    (hr : r.head? ≠ some ch) (hch : ch ≠ '\x00') : c.head ≠ ch := by
  rw [Cursor.head_eq_headD, hc]
  cases r with
  | nil => exact hch.symm
  | cons d r => exact fun heq => hr (congrArg some heq)

theorem skipGaps_stop {r : List Char} (hr : Stops r) (hc : s.cursor.rest = r) (fuel : Nat) :
    skipGaps (fuel + 1) s = .ok (s.withCursor (s.cursor.look 1)) := by
  obtain ⟨⟨hblank, hbreak⟩, hcomment⟩ := hr
  have hhead : (s.cursor.look 1).head = r.headD '\x00' := by
    rw [Cursor.head_eq_headD]
    exact congrArg (·.headD '\x00') hc
  have htab : (r.headD '\x00' == '\t') = false := by
    rw [isBlank, Bool.or_eq_false_iff] at hblank
    exact hblank.2
  have hne : (r.headD '\x00' == '#') = false := by
    rw [beq_eq_false_iff_ne, ← hhead]
    exact head_ne_of_head? (c := s.cursor.look 1) hc hcomment (by decide)
  rw [skipGaps]
  simp only [hhead, htab, hblank, hbreak, hne, Bool.false_and, Bool.false_eq_true, if_false]

/-- Spaces are skipped. -/
theorem skipGaps_spaces {r : List Char} {n : Nat} (hr : Stops r)
    (hc : s.cursor.rest = List.replicate n ' ' ++ r) {fuel : Nat} (hfuel : n < fuel) :
    ∃ c, Cursor.Along n s.cursor c ∧ c.atMargin = s.cursor.atMargin ∧
      skipGaps fuel s = .ok (s.withCursor c) := by
  induction n generalizing s fuel with
  | zero =>
      obtain ⟨fuel, rfl⟩ := Nat.exists_eq_succ_of_ne_zero (Nat.ne_of_gt hfuel)
      exact ⟨s.cursor.look 1, Cursor.along_look 1 _, rfl, skipGaps_stop hr hc fuel⟩
  | succ n ih =>
      obtain ⟨fuel, rfl⟩ := Nat.exists_eq_succ_of_ne_zero (Nat.ne_zero_of_lt hfuel)
      have hhead : (s.cursor.look 1).head = ' ' :=
        Cursor.head_of_rest (c := s.cursor.look 1) (r := List.replicate n ' ' ++ r) hc
      have hstep := (Cursor.along_look 1 s.cursor).trans (Cursor.along_advanceBlank 1 _)
      obtain ⟨c, halong, hmargin, hskip⟩ :=
        ih (s := s.withCursor ((s.cursor.look 1).advanceBlank 1))
          (by show ((s.cursor.look 1).advanceBlank 1).rest = _; rw [hstep.rest, hc]; rfl)
          (Nat.lt_of_succ_lt_succ hfuel)
      refine ⟨c, ?_, hmargin, ?_⟩
      · have hall := hstep.trans halong
        rwa [Nat.zero_add, Nat.add_comm] at hall
      · have htab : (' ' == '\t') = false := rfl
        have hblank : isBlank ' ' = true := rfl
        rw [skipGaps]
        simp only [hhead, htab, hblank, Bool.false_and, Bool.false_eq_true, if_false, if_true]
        exact hskip

/-- A line break and the indentation of the next line are skipped. -/
theorem skipGaps_line {r : List Char} {n : Nat} (hr : Stops r)
    (hc : s.cursor.rest = '\n' :: (List.replicate n ' ' ++ r)) (hdepth : s.depth = 0) {fuel : Nat}
    (hfuel : n + 1 < fuel) :
    ∃ c, Cursor.Below r n s.cursor c ∧ skipGaps fuel s = .ok (s.withCursor c).allowKey := by
  obtain ⟨fuel, rfl⟩ := Nat.exists_eq_succ_of_ne_zero (Nat.ne_zero_of_lt hfuel)
  have hhead : (s.cursor.look 1).head = '\n' := Cursor.head_of_rest (c := s.cursor.look 1) hc
  have hbelow := Cursor.below_passBreak (c := s.cursor.look 1) hc
  have hpass : (s.withCursor (s.cursor.look 1)).passBreak =
      (s.withCursor (s.cursor.look 1).passBreak).allowKey := by
    rw [passBreak_eq, inFlow_eq_false (s := s.withCursor (s.cursor.look 1)) hdepth]
    rfl
  obtain ⟨c, halong, hmargin, hskip⟩ :=
    skipGaps_spaces (s := (s.withCursor (s.cursor.look 1).passBreak).allowKey) hr hbelow.rest
      (Nat.lt_of_succ_lt_succ hfuel)
  have hbelow' := hbelow.along halong List.length_replicate hmargin
  rw [Nat.zero_add] at hbelow'
  refine ⟨c, hbelow'.of_line_eq rfl, ?_⟩
  have htab : ('\n' == '\t') = false := rfl
  have hblank : isBlank '\n' = false := rfl
  have hbreak : isBreak '\n' = true := rfl
  rw [skipGaps]
  simp only [hhead, htab, hblank, hbreak, Bool.false_and, Bool.false_eq_true, if_false, if_true]
  rw [hpass, hskip]
  rfl

theorem skipToToken_stop {r : List Char} (hr : Stops r) (hc : s.cursor.rest = r) :
    s.skipToToken = .ok (s.withCursor (s.cursor.look 1)) :=
  skipGaps_stop hr hc _

theorem skipToToken_line {r : List Char} {n : Nat} (hr : Stops r)
    (hc : s.cursor.rest = '\n' :: (List.replicate n ' ' ++ r)) (hdepth : s.depth = 0) :
    ∃ c, Cursor.Below r n s.cursor c ∧ s.skipToToken = .ok (s.withCursor c).allowKey := by
  refine skipGaps_line hr hc hdepth ?_
  rw [hc, List.length_cons, List.length_append, List.length_replicate]
  omega

end Scanner

open Scanner

/-! ### Places -/

/-- A token that says nothing about the node after it and does not end the text. -/
def Lexeme.isOrdinary (l : Lexeme) : Bool :=
  l != .streamEnd && !l.isProperty

/-- The scanner has come to a column, with these blocks open and these tokens read. -/
structure Reached (S : List Nat) (provisional : Bool) (d : Nat) (r : List Char) (ls : List Lexeme)
    (s : Scanner) : Prop where
  rest : s.cursor.rest = r
  column : s.cursor.column = d
  indent : s.indent = indentOf S provisional
  indents : s.indents = indentsOf S provisional
  pair : s.inPair = false
  lexemes : s.lexemes = ls
  ordinary : ∀ l ∈ ls, l.isOrdinary = true

/-- The scanner stands in front of a token that is no value to anything before it. -/
structure Standing (S : List Nat) (provisional allowed : Bool) (d : Nat) (r : List Char)
    (ls : List Lexeme) (s : Scanner) : Prop extends Reached S provisional d r ls s where
  depth : s.depth = 0
  keyAllowed : s.keyAllowed = allowed
  keys : ∃ k, s.keys = [k] ∧ k.possible = false

/-- The scanner stands in front of the colon of a key, the last token, that begins at a column. -/
structure AtColon (S : List Nat) (provisional : Bool) (d : Nat) (r : List Char) (ls : List Lexeme)
    (token : Lexeme) (start : Nat) (s : Scanner) : Prop extends
    Reached S provisional d r (ls ++ [token]) s where
  depth : s.depth = 0
  keys : ∃ k, s.keys = [k] ∧ k.possible = true ∧ k.number = ls.length ∧ k.mark.column = start

/-- The scanner stands inside a flow collection, with nothing that could be a key. -/
structure Inside (S : List Nat) (provisional : Bool) (d : Nat) (r : List Char) (ls : List Lexeme)
    (s : Scanner) : Prop extends Reached S provisional d r ls s where
  depth : s.depth = 1
  keys : ∃ k, s.keys = [.none, k] ∧
    (k.possible = true → k.required = false ∧ k.mark.line ≤ s.mark.line)

/-- The places that are described without what has been handed on. -/
def Stage.of (holds : Scanner → Prop) (ls : List Lexeme)
    (timeless : ∀ {s} (n : Nat), holds s → holds (s.withDelivered n))
    (reached : ∀ {s}, holds s → ∃ S provisional d r, Reached S provisional d r ls s) :
    Stage where
  holds := holds
  size := ls.length
  timeless := timeless
  size_eq h := by
    obtain ⟨S, provisional, d, r, h⟩ := reached h
    rw [size_tokens, h.lexemes]
  open_end h t ht := by
    obtain ⟨S, provisional, d, r, h⟩ := reached h
    have hmem : t.lexeme ∈ ls := by
      rw [← h.lexemes]
      exact List.mem_map_of_mem (Array.mem_toList_iff.mpr ht)
    have hordinary := h.ordinary _ hmem
    rw [Lexeme.isOrdinary, Bool.and_eq_true, bne_iff_ne] at hordinary
    exact hordinary.1

section Stages

variable {S : List Nat} {provisional allowed : Bool} {d : Nat} {r : List Char} {ls : List Lexeme}

theorem Reached.withDelivered {s : Scanner} (h : Reached S provisional d r ls s) (n : Nat) :
    Reached S provisional d r ls (s.withDelivered n) :=
  ⟨h.rest, h.column, h.indent, h.indents, h.pair, h.lexemes, h.ordinary⟩

variable (S provisional allowed d r ls)

/-- Standing in front of a token. -/
def standing : Stage :=
  .of (Standing S provisional allowed d r ls) ls
    (fun n h => ⟨h.toReached.withDelivered n, h.depth, h.keyAllowed, h.keys⟩)
    (fun h => ⟨_, _, _, _, h.toReached⟩)

/-- Standing in front of the colon of a key. -/
def atColon (token : Lexeme) (start : Nat) : Stage :=
  .of (AtColon S provisional d r ls token start) (ls ++ [token])
    (fun n h => ⟨h.toReached.withDelivered n, h.depth, h.keys⟩)
    (fun h => ⟨_, _, _, _, h.toReached⟩)

/-- Standing inside a flow collection. -/
def inside : Stage :=
  .of (Inside S provisional d r ls) ls
    (fun n h => ⟨h.toReached.withDelivered n, h.depth, h.keys⟩)
    (fun h => ⟨_, _, _, _, h.toReached⟩)

end Stages

end YamlDelta.Markup
