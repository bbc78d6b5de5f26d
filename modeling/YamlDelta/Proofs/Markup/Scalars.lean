/-
How the tokens that are nodes by themselves are read.

A scalar on one line, a block of text and an empty collection are followed by a line break and
the indentation of the next line.  If the next line does not belong to the block, the block
ends there.  In each case the scanner stands in front of the next line afterwards, with one or
two tokens more, and those of the blocks that have ended.
-/
import YamlDelta.Proofs.Markup.Standing

namespace YamlDelta.Markup

open Scanner

variable {S : List Nat} {provisional allowed : Bool} {d n : Nat} {r : List Char} {ls : List Lexeme}
  {s t : Scanner}

/-- A line at this column ends what is in these blocks, or the text ends. -/
def Ends (S : List Nat) (n : Nat) (r : List Char) : Prop :=
  (n : Int) ≤ level S ∨ S = [] ∧ n = 0 ∧ r = []

theorem Ends.le_or (h : Ends S n r) : (n : Int) ≤ level S ∨ n = 0 ∧ r = [] :=
  h.imp_right And.right

/-! ### Settling -/

theorem settle_eq {u : Scanner} (hskip : (s.withCursor (s.cursor.look 1)).skipToToken = .ok t)
    (hdrop : t.dropStaleKeys = .ok u) :
    s.settle = .ok ((u.closeBlocks u.cursor.column).withCursor
      ((u.closeBlocks u.cursor.column).cursor.look 4)) := by
  unfold settle
  simp only [bind, Except.bind, hskip, hdrop]

/-- A line has ended and the next one begins here, where an old key may be left. -/
structure NewLine (S : List Nat) (provisional : Bool) (n : Nat) (r : List Char) (ls : List Lexeme)
    (s : Scanner) : Prop extends Reached S provisional n r ls s where
  depth : s.depth = 0
  keyAllowed : s.keyAllowed = true
  keys : ∃ k, s.keys = [k] ∧
    (k.possible = true → k.required = false ∧ k.mark.line < s.mark.line)

theorem dropStaleKeys_newLine (h : NewLine S provisional n r ls s) :
    ∃ k, k.possible = false ∧ s.dropStaleKeys = .ok (s.withKeys [k] s.delivered) := by
  obtain ⟨k, hkeys, hk⟩ := h.keys
  rw [dropStaleKeys_eq, inFlow_eq_false h.depth, if_neg Bool.false_ne_true, hkeys]
  cases hpossible : k.possible with
  | false =>
      refine ⟨k, hpossible, ?_⟩
      have hstale : isStale s.mark k = false := by rw [isStale, hpossible, Bool.false_and]
      simp [missesKey, keysAt, hstale]
  | true =>
      obtain ⟨hrequired, hline⟩ := hk hpossible
      refine ⟨k.withdraw, rfl, ?_⟩
      have hstale : isStale s.mark k = true := by simp [isStale, hpossible, hline]
      simp [missesKey, keysAt, hstale, hrequired]

/-- At the beginning of a line the blocks close that end there. -/
theorem settle_newLine (hskip : (s.withCursor (s.cursor.look 1)).skipToToken = .ok t)
    (h : NewLine S provisional n r ls t) (hn : Ends S n r)
    (hprovisional : S = [] → provisional = false) :
    ∃ s', s.settle = .ok s' ∧ Standing (openAt n S) false true n r (ls ++ ends n S) s' := by
  obtain ⟨k, hpossible, hdrop⟩ := dropStaleKeys_newLine h
  refine ⟨_, settle_eq hskip hdrop, ?_⟩
  rw [show (t.withKeys [k] t.delivered).cursor.column = n from h.column]
  have hends : ∀ l ∈ ends n S, l.isOrdinary = true := fun l hl => by
    rw [List.eq_of_mem_replicate hl]
    rfl
  rcases hn with hn | ⟨rfl, rfl, -⟩
  · obtain ⟨hlexemes, hframe⟩ :=
      closeBlocks_levels (s := t.withKeys [k] t.delivered) h.depth h.indent h.indents hn
    rw [hframe]
    exact {
      rest := h.rest
      column := h.column
      indent := rfl
      indents := rfl
      pair := h.pair
      lexemes := hlexemes.trans (congrArg (· ++ ends n S) h.lexemes)
      ordinary := fun l hl => (List.mem_append.mp hl).elim (h.ordinary l) (hends l)
      depth := h.depth
      keyAllowed := h.keyAllowed
      keys := ⟨k, rfl, hpossible⟩ }
  · have hfalse := hprovisional rfl
    subst hfalse
    have hindent : (t.withKeys [k] t.delivered).indent = -1 := h.indent
    rw [closeBlocks_inside (by rw [hindent]; decide)]
    exact {
      rest := h.rest
      column := h.column
      indent := h.indent
      indents := h.indents
      pair := h.pair
      lexemes := h.lexemes.trans (List.append_nil _).symm
      ordinary := fun l hl => (List.mem_append.mp hl).elim (h.ordinary l) (hends l)
      depth := h.depth
      keyAllowed := h.keyAllowed
      keys := ⟨k, rfl, hpossible⟩ }

/-- The scanner has come to the next line already. -/
theorem settle_here (h : NewLine S provisional n r ls s) (hr : Stops r) (hn : Ends S n r)
    (hprovisional : S = [] → provisional = false) :
    ∃ s', s.settle = .ok s' ∧ Standing (openAt n S) false true n r (ls ++ ends n S) s' := by
  refine settle_newLine (skipToToken_stop (s := s.withCursor (s.cursor.look 1)) hr h.rest) ?_ hn
    hprovisional
  exact ⟨⟨h.rest, h.column, h.indent, h.indents, h.pair, h.lexemes, h.ordinary⟩, h.depth,
    h.keyAllowed, h.keys⟩

theorem next_eq {s' : Scanner} (h : s.dispatch = .ok t) (h' : t.settle = .ok s') :
    s.next = .ok s' := by
  rw [Scanner.next, h]
  exact h'

/-! ### Which token begins here -/

theorem dispatch_lexeme (hrest : s.cursor.rest = r) (hend : isEnd (r.headD '\x00') = false)
    (hdirective : s.cursor.column = 0 → r.head? ≠ some '%') (hmarker : s.cursor.isMarker = false)
    (hindent : s.indent ≤ s.cursor.column) : s.dispatch = s.fetchLexeme := by
  have hhead : s.cursor.head = r.headD '\x00' := by rw [Cursor.head_eq_headD, hrest]
  have hpercent : (s.cursor.column == 0 && s.cursor.head == '%') = false := by
    by_cases hzero : s.cursor.column = 0
    · rw [Bool.and_eq_false_iff]
      exact .inr (beq_eq_false_iff_ne.mpr
        (head_ne_of_head? hrest (hdirective hzero) (by decide)))
    · rw [beq_eq_false_iff_ne.mpr hzero, Bool.false_and]
  rw [Cursor.isMarker, Bool.or_eq_false_iff] at hmarker
  unfold dispatch
  simp only [hhead ▸ hpercent, hhead, hend, hmarker.1, hmarker.2, Bool.false_eq_true, if_false,
    Int.not_lt.mpr hindent]

/-- How a scalar on one line may begin without quotes. -/
structure PlainStart (ch : Char) (x : List Char) : Prop where
  no_indicator : ch ∉ [',', '[', ']', '\x7b', '\x7d', '#', '&', '*', '!', '|', '>', '\'', '"', '%',
    '@', '\x60']
  no_entry : ch ∈ ['-', '?', ':'] → isGap (x.headD '\x00') = false

theorem PlainStart.append {ch : Char} {x : List Char} (h : PlainStart ch x) (y : List Char) :
    PlainStart ch (x ++ y) := by
  refine ⟨h.no_indicator, fun hentry => ?_⟩
  have hgap := h.no_entry hentry
  cases x with
  | nil => exact absurd hgap (by decide)
  | cons d x => exact hgap

/-- How a text is written as a scalar on one line. -/
inductive Inline : Style → List Char → List Char → Prop
  | plain {ch : Char} {x : List Char} (ht : Cursor.Words (ch :: x)) (hstart : PlainStart ch x) :
      Inline .plain (ch :: x) (ch :: x)
  | quoted {single : Bool} {t pt : List Char} (h : Spelled single t pt) :
      Inline (if single then .singleQuoted else .doubleQuoted) t
        (quoteMark single :: (pt ++ [quoteMark single]))

theorem fetchLexeme_plain {ch : Char} {x : List Char} (hstart : PlainStart ch x)
    (hrest : s.cursor.rest = ch :: x) (hdepth : s.depth = 0) : s.fetchLexeme = s.fetchPlain := by
  have hhead : s.cursor.head = ch := Cursor.head_of_rest hrest
  have hnext : s.cursor.peek 1 = x.headD '\x00' := Cursor.peek_one_of_rest hrest
  obtain ⟨hindicator, hentry⟩ := hstart
  unfold fetchLexeme
  rw [hhead, hnext]
  dsimp only
  split
  case h_6 => rw [hentry (by decide), if_neg Bool.false_ne_true]
  case h_7 => rw [hentry (by decide), if_neg Bool.false_ne_true]
  case h_8 =>
    rw [hentry (by decide), inFlow_eq_false hdepth]
    rfl
  case h_19 => rfl
  all_goals exact absurd (by decide) hindicator

/-- The first character of a scalar on one line. -/
theorem Inline.head_cases {style : Style} {u p : List Char} (h : Inline style u p) :
    ∃ ch x, p = ch :: x ∧ isGap ch = false ∧ ch ≠ '#' ∧ ch ≠ '%' := by
  cases h with
  | plain ht hstart =>
      obtain ⟨_, _, heq, hgap⟩ := ht.exists_cons
      cases heq
      refine ⟨_, _, rfl, hgap, ?_, ?_⟩
      · rintro rfl
        exact hstart.no_indicator (by decide)
      · rintro rfl
        exact hstart.no_indicator (by decide)
  | @quoted single t pt h => cases single <;> exact ⟨_, _, rfl, rfl, by decide, by decide⟩

theorem isMarker_eq_ofText {c : Cursor} (hrest : c.rest = r) (hcolumn : c.column = 0) :
    c.isMarker = (Cursor.ofText r).isMarker := by
  unfold Cursor.isMarker Cursor.isMarkerOf Cursor.peek
  rw [hcolumn, hrest]
  rfl

/-- A document can begin or end at the start of a line only. -/
theorem isMarker_of_rest {c : Cursor} (hrest : c.rest = r)
    (hr : c.column = 0 → (Cursor.ofText r).isMarker = false) : c.isMarker = false := by
  by_cases hzero : c.column = 0
  · rw [isMarker_eq_ofText hrest hzero, hr hzero]
  · exact Cursor.not_isMarker hzero

theorem head_of_isMarker {c : Cursor} (h : c.isMarker = true) : c.head = '-' ∨ c.head = '.' := by
  simp only [Cursor.isMarker, Cursor.isMarkerOf, Bool.or_eq_true, Bool.and_eq_true,
    beq_iff_eq] at h
  exact h.imp (·.1.1.1.2) (·.1.1.1.2)

theorem isMarker_cons {ch : Char} {x : List Char} (hhyphen : ch ≠ '-') (hdot : ch ≠ '.') :
    (Cursor.ofText (ch :: x)).isMarker = false := by
  simp [Cursor.isMarker, Cursor.isMarkerOf, Cursor.peek, Cursor.ofText, hhyphen, hdot]

/-- A token begins here that is neither a directive nor a marker. -/
theorem Reached.dispatch {ch : Char} {x : List Char} (hs : Reached S provisional d (ch :: x) ls s)
    (hgap : isGap ch = false) (hdirective : ch ≠ '%') (hd : indentOf S provisional ≤ d)
    (hmarker : d = 0 → (Cursor.ofText (ch :: x)).isMarker = false) :
    s.dispatch = s.fetchLexeme := by
  simp only [isGap, isLineEnd, Bool.or_eq_false_iff] at hgap
  exact dispatch_lexeme hs.rest hgap.2.2 (fun _ heq => hdirective (Option.some.inj heq))
    (isMarker_of_rest hs.rest (hs.column ▸ hmarker)) (by rw [hs.indent, hs.column]; exact hd)

theorem Inline.dispatch {style : Style} {u p y : List Char} (h : Inline style u p)
    (hs : Reached S provisional d (p ++ y) ls s) (hd : indentOf S provisional ≤ d)
    (hmarker : d = 0 → (Cursor.ofText (p ++ y)).isMarker = false) :
    s.dispatch = s.fetchLexeme := by
  obtain ⟨ch, x, rfl, hgap, -, hpercent⟩ := h.head_cases
  exact hs.dispatch hgap hpercent hd hmarker

/-- A node inside a block is to the right of its indentation, which may be provisional. -/
theorem indentOf_le (hd : level S < d) : indentOf S provisional ≤ d := by
  cases provisional with
  | false => exact Int.le_of_lt hd
  | true => exact hd

/-- A place where a key may be is remembered. -/
theorem saveKey_eq (hs : Standing S provisional allowed d r ls s) :
    ∃ k, s.saveKey = { s with keys := [k] } ∧ (allowed = true → k.possible = true) ∧
      (k.possible = true → k.number = ls.length ∧ k.mark = s.mark ∧
        (level S < d → k.required = false)) := by
  obtain ⟨k, hkeys, hk⟩ := hs.keys
  cases allowed with
  | false =>
      refine ⟨k, ?_, fun h => (Bool.false_ne_true h).elim, fun h => ?_⟩
      · unfold saveKey
        rw [if_neg (by rw [hs.keyAllowed]; exact Bool.false_ne_true), ← hkeys]
      · rw [hk] at h
        cases h
  | true =>
      refine ⟨⟨true, !s.inFlow && s.indent == s.cursor.column
        && (s.indents.head?.map (·.isBlock)).getD false, s.tokens.size, s.mark⟩, ?_, fun _ => rfl,
        fun _ => ⟨?_, rfl, fun hd => ?_⟩⟩
      · unfold saveKey setKey
        rw [hs.keyAllowed, if_pos rfl, hkeys]
        rfl
      · rw [size_tokens, hs.lexemes]
      · show (!s.inFlow && s.indent == s.cursor.column
          && (s.indents.head?.map (·.isBlock)).getD false) = false
        rw [hs.indent, hs.indents, hs.column]
        cases provisional with
        | false =>
            have hne : ((level S) == (d : Int)) = false := beq_eq_false_iff_ne.mpr (Int.ne_of_lt hd)
            rw [show indentOf S false = level S from rfl, hne, Bool.and_false, Bool.false_and]
        | true => exact Bool.and_false _

/-- A provisional indentation ends. -/
theorem closeProvisional_eq (h : s.indent = indentOf S provisional)
    (h' : s.indents = indentsOf S provisional) :
    s.closeProvisional = { s with indent := level S, indents := levels S } := by
  have hlevels : ∀ s : Scanner, s.indent = level S → s.indents = levels S →
      dropProvisional s (levels S) = s := by
    intro s h h'
    cases S with
    | nil => rfl
    | cons d S => rfl
  unfold closeProvisional
  rw [h']
  cases provisional with
  | false =>
      rw [show indentsOf S false = levels S from rfl, hlevels s h h',
        ← show s.indent = level S from h,
        ← show s.indents = levels S from h']
  | true => exact hlevels _ rfl rfl

/-- The scanner before it reads a plain scalar. -/
theorem fetchPlain_eq (hs : Standing S provisional allowed d r ls s) {k : KeyCandidate}
    (hsave : s.saveKey = { s with keys := [k] }) {text : String} {c : Cursor}
    (hscalar : s.cursor.plainScalar false (level S) = .ok (text, c)) :
    s.fetchPlain = .ok (Scanner.push
      { s with
        cursor := c, keys := [k], indent := level S, indents := levels S
        keyAllowed := c.atMargin } s.mark (.scalar .plain text)) := by
  have hclose := closeProvisional_eq (s := { s with keys := [k], keyAllowed := false })
    hs.indent hs.indents
  have hflow : (s.depth != 0) = false := by rw [hs.depth]; rfl
  unfold fetchPlain
  rw [hsave]
  simp only [disallowKey, hclose, inFlow, hflow, bind, Except.bind, hscalar, withCursor]
  cases c.atMargin <;> rfl

/-- The scanner before it reads a scalar in quotes. -/
theorem fetchQuoted_eq {single : Bool} (hs : Standing S provisional allowed d r ls s)
    {k : KeyCandidate} (hsave : s.saveKey = { s with keys := [k] }) {text : String} {c : Cursor}
    (hscalar : s.cursor.quotedScalar single false (indentOf S provisional) = .ok (text, c))
    (hskip :
      (Scanner.withCursor { s with keys := [k], keyAllowed := false } c).skipToToken = .ok t) :
    s.fetchQuoted single = .ok (Scanner.push { t with valueAt := t.mark.index } s.mark
      (.scalar (if single then .singleQuoted else .doubleQuoted) text)) := by
  have hflow : (s.depth != 0) = false := by rw [hs.depth]; rfl
  rw [← hs.indent] at hscalar
  unfold fetchQuoted
  rw [hsave]
  simp only [disallowKey, inFlow, hflow, bind, Except.bind, hscalar, hskip]

theorem ordinary_concat (h : ∀ l ∈ ls, l.isOrdinary = true) {l : Lexeme}
    (hl : l.isOrdinary = true) :
    ∀ m ∈ ls ++ [l], m.isOrdinary = true := by
  intro m hm
  rcases List.mem_append.mp hm with hm | hm
  · exact h m hm
  · rwa [List.mem_singleton.mp hm]

/-- A plain scalar that ends with its line is read. -/
theorem fetchPlain_line {u : List Char} (hu : Cursor.Words u) (hcomment : u.head? ≠ some '#')
    (hs : Standing S provisional allowed d (u ++ '\n' :: (List.replicate n ' ' ++ r)) ls s)
    (hmarker : s.cursor.isMarker = false) (hd : level S < d) (hn : Ends S n r) (hr : Stops r) :
    ∃ t, s.fetchPlain = .ok t ∧ t.delivered = s.delivered ∧
      NewLine S false n r (ls ++ [.scalar .plain (String.ofList u)]) t := by
  obtain ⟨k, hsave, -, hk⟩ := saveKey_eq hs
  obtain ⟨c, hc, hscalar⟩ := Cursor.plainScalar_line hu hcomment hs.rest hr.1 hmarker
    (by rw [hs.column]; exact Int.le_of_lt hd) hn.le_or
  refine ⟨_, fetchPlain_eq hs hsave hscalar, rfl, ?_⟩
  exact {
    rest := hc.rest
    column := hc.column
    indent := rfl
    indents := rfl
    pair := hs.pair
    lexemes := by rw [lexemes_push]; exact congrArg (· ++ _) hs.lexemes
    ordinary := ordinary_concat hs.ordinary rfl
    depth := hs.depth
    keyAllowed := hc.margin
    keys := ⟨k, rfl, fun hpossible => by
      obtain ⟨-, hmark, hrequired⟩ := hk hpossible
      exact ⟨hrequired hd, by rw [hmark]; exact hc.line⟩⟩ }

/-- A scalar in quotes that ends with its line is read. -/
theorem fetchQuoted_line {single : Bool} {u pu : List Char} (hu : Spelled single u pu)
    (hs : Standing S provisional allowed d
      (quoteMark single :: (pu ++ quoteMark single :: '\n' :: (List.replicate n ' ' ++ r))) ls s)
    (hd : level S < d) (hindent : indentOf S provisional ≤ d) (hr : Stops r) :
    ∃ t, s.fetchQuoted single = .ok t ∧ t.delivered = s.delivered ∧
      NewLine S provisional n r
        (ls ++ [.scalar (if single then .singleQuoted else .doubleQuoted) (String.ofList u)])
        t := by
  obtain ⟨k, hsave, -, hk⟩ := saveKey_eq hs
  obtain ⟨c, halong, hrest, hscalar⟩ := Cursor.quotedScalar_spelled hu hs.rest (.inl rfl)
    (show indentOf S provisional ≤ s.cursor.column by rw [hs.column]; exact hindent)
  obtain ⟨c', hbelow, hskip⟩ := skipToToken_line
    (s := Scanner.withCursor { s with keys := [k], keyAllowed := false } c) hr hrest hs.depth
  refine ⟨_, fetchQuoted_eq hs hsave hscalar hskip, rfl, ?_⟩
  exact {
    rest := hbelow.rest
    column := hbelow.column
    indent := hs.indent
    indents := hs.indents
    pair := hs.pair
    lexemes := by rw [lexemes_push]; exact congrArg (· ++ _) hs.lexemes
    ordinary := ordinary_concat hs.ordinary rfl
    depth := hs.depth
    keyAllowed := rfl
    keys := ⟨k, rfl, fun hpossible => by
      obtain ⟨-, hmark, hrequired⟩ := hk hpossible
      refine ⟨hrequired hd, ?_⟩
      rw [hmark]
      exact halong.line ▸ hbelow.line⟩ }

theorem fetchLexeme_quoted {single : Bool} (hrest : s.cursor.rest = quoteMark single :: r) :
    s.fetchLexeme = s.fetchQuoted single := by
  have hhead : s.cursor.head = quoteMark single := Cursor.head_of_rest hrest
  unfold fetchLexeme
  rw [hhead]
  cases single <;> rfl

/-- What can follow a line, and what is said by the column it has. -/
theorem leads_newLine {A : Stage} {ls' : List Lexeme} (hsize : A.size < ls'.length)
    (hr : Stops r) (hn : Ends S n r)
    (h : ∀ s, A.holds s → ∃ t p, s.dispatch = .ok t ∧ t.delivered = s.delivered ∧
      (S = [] → p = false) ∧ NewLine S p n r ls' t) :
    Leads A (standing (openAt n S) false true n r (ls' ++ ends n S)) where
  size_lt := by
    show A.size < (ls' ++ ends n S).length
    rw [List.length_append]
    omega
  next s hs := by
    obtain ⟨t, p, hdispatch, hdelivered, hp, ht⟩ := h s hs
    obtain ⟨s', hsettle, hs'⟩ := settle_here ht hr hn hp
    exact ⟨s', next_eq hdispatch hsettle, (settle_delivered hsettle).trans hdelivered, hs'⟩

/-- A scalar on one line that is not a key. -/
theorem leads_inline {style : Style} {u p : List Char} (h : Inline style u p) (hd : level S < d)
    (hn : Ends S n r) (hr : Stops r) (hprovisional : S = [] → provisional = false)
    (hmarker : d = 0 →
      (Cursor.ofText (p ++ '\n' :: (List.replicate n ' ' ++ r))).isMarker = false) :
    Leads (standing S provisional allowed d (p ++ '\n' :: (List.replicate n ' ' ++ r)) ls)
      (standing (openAt n S) false true n r
        (ls ++ [.scalar style (String.ofList u)] ++ ends n S)) := by
  refine leads_newLine (by show ls.length < _; simp) hr hn fun s hs => ?_
  have hindent : indentOf S provisional ≤ d := indentOf_le hd
  rw [h.dispatch (Standing.toReached hs) hindent hmarker]
  cases h with
  | plain hu hstart =>
      obtain ⟨t, hfetch, hdelivered, ht⟩ := fetchPlain_line hu
        (fun heq => hstart.no_indicator (by rw [Option.some.inj heq]; decide)) hs
        (isMarker_of_rest hs.rest (hs.column ▸ hmarker)) hd hn hr
      exact ⟨t, false, (fetchLexeme_plain (hstart.append _) hs.rest hs.depth).trans hfetch,
        hdelivered, fun _ => rfl, ht⟩
  | @quoted single u pu hu =>
      have hs' : Standing S provisional allowed d (quoteMark single ::
          (pu ++ quoteMark single :: '\n' :: (List.replicate n ' ' ++ r))) ls s := by
        have hs' : Standing .. := hs
        simpa using hs'
      obtain ⟨t, hfetch, hdelivered, ht⟩ := fetchQuoted_line hu hs' hd hindent hr
      exact ⟨t, provisional, (fetchLexeme_quoted hs'.rest).trans hfetch, hdelivered, hprovisional,
        ht⟩

/-! ### Blocks of text -/

/-- A block of text. -/
theorem leads_block {chomping : Chomping} {lines : List (List Char)} {body : List Char} {w : Nat}
    (hsets : Cursor.Sets chomping lines body) (hclip : chomping = .clip → body = [] → r = [])
    (hw : level S + 1 < w) (hd : level S < d) (hn : Ends S n r) (hr : Stops r) :
    Leads (standing S provisional allowed d ('|' :: (Cursor.chompingMark chomping ++
        '\n' :: setLines w lines (List.replicate n ' ' ++ r))) ls)
      (standing (openAt n S) false true n r
        (ls ++ [.scalar .literal (String.ofList (Cursor.chomped chomping body))] ++ ends n S)) := by
  refine leads_newLine (by show ls.length < _; simp) hr hn fun s hs => ?_
  have hs' : Standing S provisional allowed d _ ls s := hs
  rw [hs'.toReached.dispatch rfl (by decide) (indentOf_le hd)
    (fun _ => isMarker_cons (by decide) (by decide))]
  obtain ⟨k, hsave, -, hk⟩ := saveKey_eq hs'
  have hclose := closeProvisional_eq (s := { s with keys := [k], keyAllowed := true })
    hs'.indent hs'.indents
  obtain ⟨mark, c, hc, hscalar⟩ :=
    Cursor.blockScalar_lines hsets hclip hr.1 hn.le_or (neg_one_le_level S) hw hs'.rest
  have hfetch : s.fetchLexeme = .ok (Scanner.push
      { s with
        cursor := c, keys := [k], keyAllowed := true, indent := level S, indents := levels S }
      mark (.scalar .literal (String.ofList (Cursor.chomped chomping body)))) := by
    have hhead : s.cursor.head = '|' := Cursor.head_of_rest hs'.rest
    unfold fetchLexeme
    rw [hhead]
    show (if s.inFlow = true then _ else _) = _
    rw [inFlow_eq_false hs'.depth, if_neg Bool.false_ne_true]
    unfold fetchBlockScalar
    rw [hsave]
    simp only [allowKey, hclose, bind, Except.bind, hscalar, withCursor, if_true]
  refine ⟨_, false, hfetch, rfl, fun _ => rfl, ?_⟩
  exact {
    rest := hc.rest
    column := hc.column
    indent := rfl
    indents := rfl
    pair := hs'.pair
    lexemes := by rw [lexemes_push]; exact congrArg (· ++ _) hs'.lexemes
    ordinary := ordinary_concat hs'.ordinary rfl
    depth := hs'.depth
    keyAllowed := rfl
    keys := ⟨k, rfl, fun hpossible => by
      obtain ⟨-, hmark, hrequired⟩ := hk hpossible
      exact ⟨hrequired hd, by rw [hmark]; exact hc.line⟩⟩ }

/-! ### Empty collections -/

/-- The brackets of an empty collection. -/
inductive Brackets : Char → Char → Lexeme → Lexeme → Prop
  | mapping : Brackets '\x7b' '\x7d' .flowMappingStart .flowMappingEnd
  | sequence : Brackets '[' ']' .flowSequenceStart .flowSequenceEnd

variable {left right : Char} {opening closing : Lexeme}

theorem Brackets.fetch_left (h : Brackets left right opening closing)
    (hrest : s.cursor.rest = left :: r) : s.fetchLexeme = s.fetchFlowStart opening := by
  unfold fetchLexeme
  rw [Cursor.head_of_rest hrest]
  cases h <;> rfl

theorem Brackets.fetch_right (h : Brackets left right opening closing)
    (hrest : s.cursor.rest = right :: r) : s.fetchLexeme = s.fetchFlowEnd closing := by
  unfold fetchLexeme
  rw [Cursor.head_of_rest hrest]
  cases h <;> rfl

/-- A bracket begins neither a directive nor a marker nor a comment. -/
def IsBracket (ch : Char) : Prop :=
  isGap ch = false ∧ ch ≠ '%' ∧ ch ≠ '-' ∧ ch ≠ '.' ∧ ch ≠ '#'

theorem Brackets.isBracket (h : Brackets left right opening closing) :
    IsBracket left ∧ IsBracket right := by
  cases h <;> exact ⟨⟨rfl, by decide, by decide, by decide, by decide⟩,
    ⟨rfl, by decide, by decide, by decide, by decide⟩⟩

theorem IsBracket.dispatch {ch : Char} (h : IsBracket ch)
    (hs : Reached S provisional d (ch :: r) ls s) (hd : indentOf S provisional ≤ d) :
    s.dispatch = s.fetchLexeme := by
  obtain ⟨hgap, hdirective, hhyphen, hdot, -⟩ := h
  exact hs.dispatch hgap hdirective hd fun _ => isMarker_cons hhyphen hdot

/-- What follows a provisional indentation, or one that may become provisional. -/
theorem openProvisional_eq (hs : Reached S provisional d r ls s) (hdepth : s.depth = 0)
    (hprovisional : S = [] → provisional = false) :
    s.openProvisional =
      { s with indent := indentOf S (!S.isEmpty), indents := indentsOf S (!S.isEmpty) } := by
  have hflow := inFlow_eq_false hdepth
  have hindent := hs.indent
  have hindents := hs.indents
  unfold openProvisional
  cases S with
  | nil =>
      rw [hprovisional rfl] at hindent hindents
      rw [hindents]
      show s = { s with indent := indentOf [] false, indents := indentsOf [] false }
      rw [← hindent, ← hindents]
  | cons e S =>
      cases provisional with
      | false =>
          rw [hindents, show indentsOf (e :: S) false = ⟨level S, true⟩ :: levels S from rfl, hflow]
          rw [hindent]
          rfl
      | true =>
          rw [hindents, show indentsOf (e :: S) true =
            ⟨level (e :: S), false⟩ :: levels (e :: S) from rfl, hflow]
          show s = { s with indent := indentOf (e :: S) true, indents := indentsOf (e :: S) true }
          rw [← hindent, ← hindents]

/-- The opening bracket of an empty collection. -/
theorem fetchFlowStart_eq (hs : Standing S provisional allowed d (left :: right :: r) ls s)
    (hprovisional : S = [] → provisional = false) (hgap : isGap right = false)
    (hcomment : right ≠ '#') (l : Lexeme) :
    ∃ k c, (k.possible = true → k.mark = s.mark ∧ (level S < d → k.required = false)) ∧
      Cursor.Along 1 s.cursor c ∧
      s.fetchFlowStart l = .ok (Scanner.push
        { s with
          cursor := c, keys := [.none, k], keyAllowed := true, depth := 1
          indent := indentOf S (!S.isEmpty), indents := indentsOf S (!S.isEmpty)
          inMapping := l == .flowMappingStart || s.inMapping } s.mark l) := by
  obtain ⟨k, hsave, -, hk⟩ := saveKey_eq hs
  have hprov := openProvisional_eq (s := { s with keys := [k] })
    ⟨hs.rest, hs.column, hs.indent, hs.indents, hs.pair, hs.lexemes, hs.ordinary⟩ hs.depth
    hprovisional
  have hstep := Cursor.along_advance 1 s.cursor
  obtain ⟨c, halong, -, hinline⟩ := Cursor.passInline_nothing (c := s.cursor.advance 1) (r := r)
    (by rw [hstep.rest, hs.rest]; rfl) (isBlank_of_not_gap hgap) hcomment true
  refine ⟨k, c, fun h => (hk h).2, hstep.trans halong, ?_⟩
  unfold fetchFlowStart
  rw [hsave]
  have hdepth : s.depth < maxDepth := by rw [hs.depth]; decide
  simp only [hprov, openFlow, hdepth, if_true, bind, Except.bind, allowKey, withCursor, skipInline]
  cases hmapping : l == Lexeme.flowMappingStart with
  | true => simp only [hinline, if_true, hs.depth, Bool.true_or, Nat.zero_add]
  | false =>
      simp only [hinline, Bool.false_eq_true, if_false, hs.depth, Bool.false_or, Nat.zero_add]

theorem settle_inFlow (hr : Stops r) (hrest : s.cursor.rest = r) (hdepth : s.depth = 1) :
    ∃ c, Cursor.Along 0 s.cursor c ∧ s.settle = .ok (s.withCursor c) := by
  have hflow : (s.depth != 0) = true := by rw [hdepth]; rfl
  refine ⟨((s.cursor.look 1).look 1).look 4, ((Cursor.along_look 1 _).trans
    (Cursor.along_look 1 _)).trans (Cursor.along_look 4 _), ?_⟩
  unfold settle
  rw [skipToToken_stop (s := s.withCursor (s.cursor.look 1)) hr hrest]
  simp only [bind, Except.bind, dropStaleKeys, closeBlocks, inFlow, withCursor, hflow, if_true]

theorem leads_open (h : Brackets left right opening closing) (hd : level S < d)
    (hprovisional : S = [] → provisional = false) :
    Leads (standing S provisional allowed d (left :: right :: r) ls)
      (inside S (!S.isEmpty) (d + 1) (right :: r) (ls ++ [opening])) where
  size_lt := by show ls.length < (ls ++ [opening]).length; simp
  next s hs := by
    have hs' : Standing S provisional allowed d (left :: right :: r) ls s := hs
    obtain ⟨hleft, hgap, -, -, -, hcomment⟩ := h.isBracket
    obtain ⟨k, c, hk, halong, hfetch⟩ := fetchFlowStart_eq hs' hprovisional hgap hcomment opening
    have hrest : c.rest = right :: r := by rw [halong.rest, hs'.rest]; rfl
    obtain ⟨c', halong', hsettle⟩ := settle_inFlow (r := right :: r)
      (s := Scanner.push
        { s with
          cursor := c, keys := [.none, k], keyAllowed := true, depth := 1
          indent := indentOf S (!S.isEmpty), indents := indentsOf S (!S.isEmpty)
          inMapping := opening == .flowMappingStart || s.inMapping } s.mark opening)
      (stops_cons hgap hcomment) hrest rfl
    have hdispatch := hleft.dispatch hs'.toReached (indentOf_le hd)
    rw [h.fetch_left hs'.rest, hfetch] at hdispatch
    refine ⟨_, next_eq hdispatch hsettle, rfl, ?_⟩
    exact {
      rest := by show c'.rest = _; rw [halong'.rest]; exact hrest
      column := by
        show c'.column = _
        rw [halong'.column]
        exact halong.column.trans (congrArg (· + 1) hs'.column)
      indent := rfl
      indents := rfl
      pair := hs'.pair
      lexemes := (lexemes_push _ _ _).trans (congrArg (· ++ [opening]) hs'.lexemes)
      ordinary := ordinary_concat hs'.ordinary (by cases h <;> rfl)
      depth := rfl
      keys := ⟨k, rfl, fun hpossible => by
        obtain ⟨hmark, hrequired⟩ := hk hpossible
        refine ⟨hrequired hd, ?_⟩
        rw [hmark]
        show _ ≤ c'.mark.line
        rw [halong'.line]
        exact Nat.le_of_eq halong.line.symm⟩ }

theorem fetchFlowEnd_eq (hs : Inside S provisional d (right :: '\n' :: r) ls s) (l : Lexeme) :
    ∃ k c, (k.possible = true → k.required = false ∧ k.mark.line ≤ s.mark.line) ∧
      Cursor.Along 1 s.cursor c ∧
      s.fetchFlowEnd l = .ok (Scanner.push
        { s with cursor := c, keys := [k], keyAllowed := false, depth := 0 } s.mark l) := by
  obtain ⟨k, hkeys, hk⟩ := hs.keys
  have hstep := Cursor.along_advance 1 s.cursor
  obtain ⟨c, halong, -, hinline⟩ := Cursor.passInline_nothing (c := s.cursor.advance 1) (r := r)
    (by rw [hstep.rest, hs.rest]; rfl) rfl (show '\n' ≠ '#' by decide) true
  refine ⟨k, c, hk, hstep.trans halong, ?_⟩
  have hdrop : s.dropKey = .ok { s with keys := [.none, k] } := dropKey_eq hkeys rfl
  have hclose : closeFlow { s with keys := [.none, k] } = { s with keys := [k], depth := 0 } := by
    unfold closeFlow inFlow
    simp only [hs.depth]
    rfl
  have hpair : closePair { s with keys := [k], depth := 0, keyAllowed := false } =
      { s with keys := [k], depth := 0, keyAllowed := false } := by
    unfold closePair
    rw [if_neg (by rw [hs.pair]; exact Bool.false_ne_true)]
  unfold fetchFlowEnd
  simp only [hdrop, bind, Except.bind, hclose, disallowKey, hpair, withCursor, skipInline, hinline]
  rfl

theorem leads_close (h : Brackets left right opening closing) (hd : level S < d) (hn : Ends S n r)
    (hr : Stops r) :
    Leads (inside S (!S.isEmpty) d (right :: '\n' :: (List.replicate n ' ' ++ r)) ls)
      (standing (openAt n S) false true n r (ls ++ [closing] ++ ends n S)) where
  size_lt := by show ls.length < (ls ++ [closing] ++ ends n S).length; simp
  next s hs := by
    have hs' : Inside S (!S.isEmpty) d (right :: '\n' :: (List.replicate n ' ' ++ r)) ls s := hs
    obtain ⟨k, c, hk, halong, hfetch⟩ := fetchFlowEnd_eq hs' closing
    have hrest : c.rest = '\n' :: (List.replicate n ' ' ++ r) := by rw [halong.rest, hs'.rest]; rfl
    obtain ⟨c', hbelow, hskip⟩ := skipToToken_line (r := r) (n := n)
      (s := Scanner.withCursor (Scanner.push
        { s with cursor := c, keys := [k], keyAllowed := false, depth := 0 } s.mark closing)
        (c.look 1)) hr hrest rfl
    have hline : NewLine S (!S.isEmpty) n r (ls ++ [closing]) (Scanner.allowKey
        (Scanner.withCursor (Scanner.withCursor (Scanner.push
          { s with cursor := c, keys := [k], keyAllowed := false, depth := 0 } s.mark closing)
          (c.look 1)) c')) := {
      rest := hbelow.rest
      column := hbelow.column
      indent := hs'.indent
      indents := hs'.indents
      pair := hs'.pair
      lexemes := (lexemes_push _ _ _).trans (congrArg (· ++ [closing]) hs'.lexemes)
      ordinary := ordinary_concat hs'.ordinary (by cases h <;> rfl)
      depth := rfl
      keyAllowed := rfl
      keys := ⟨k, rfl, fun hpossible => by
        obtain ⟨hrequired, hline⟩ := hk hpossible
        exact ⟨hrequired, Nat.lt_of_le_of_lt (halong.line ▸ hline) hbelow.line⟩⟩ }
    obtain ⟨s', hsettle, hs''⟩ := settle_newLine hskip hline hn (fun hS => by rw [hS]; rfl)
    have hdispatch := h.isBracket.2.dispatch hs'.toReached (indentOf_le hd)
    rw [h.fetch_right hs'.rest, hfetch] at hdispatch
    exact ⟨s', next_eq hdispatch hsettle, (settle_delivered hsettle).trans rfl, hs''⟩

/-- An empty collection. -/
theorem way_empty (h : Brackets left right opening closing) (hd : level S < d) (hn : Ends S n r)
    (hr : Stops r) (hprovisional : S = [] → provisional = false) :
    Way (standing S provisional allowed d
        (left :: right :: '\n' :: (List.replicate n ' ' ++ r)) ls)
      (standing (openAt n S) false true n r (ls ++ [opening, closing] ++ ends n S)) := by
  have hclose : Leads (inside S (!S.isEmpty) (d + 1) _ (ls ++ [opening])) _ :=
    leads_close h (by omega) hn hr
  rw [List.append_assoc ls [opening]] at hclose
  exact .head (leads_open h hd hprovisional) (.single hclose)

end YamlDelta.Markup
