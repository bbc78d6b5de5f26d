/-
How the tokens of a block collection are read.

An entry of a mapping begins with its key and a colon, an item of a sequence with a hyphen.
The first of them opens a block at its column, unless one is open there already, and what
comes after it is inside that block.  At the end of the text all blocks close.
-/
import YamlDelta.Proofs.Markup.Scalars

namespace YamlDelta.Markup

open Scanner

variable {S : List Nat} {provisional allowed : Bool} {d n start : Nat} {r : List Char}
  {ls : List Lexeme} {s t : Scanner} {token : Lexeme}

/-! ### Opening a block -/

/-- The blocks that are open inside an entry or an item at a column. -/
def opened (d : Nat) (S : List Nat) : List Nat :=
  if level S < d then d :: S else S

/-- The token with which a block begins, unless it has begun already. -/
def begins (d : Nat) (S : List Nat) (opening : Lexeme) : List Lexeme :=
  if level S < d then [opening] else []

theorem level_opened (hd : level S ≤ d) : level (opened d S) = d := by
  unfold opened
  split
  · rfl
  · omega

theorem opened_ne_nil (d : Nat) (S : List Nat) : opened d S ≠ [] := by
  unfold opened
  split
  · exact List.cons_ne_nil _ _
  · rename_i h
    rintro rfl
    exact h (by show (-1 : Int) < d; omega)

/-- What opening a block changes. -/
structure Opened (d : Nat) (S : List Nat) (opening : Lexeme) (before after : List Lexeme)
    (s s' : Scanner) : Prop where
  lexemes : s'.lexemes = before ++ (begins d S opening ++ after)
  frame : s' = { s with
    indent := level (opened d S), indents := levels (opened d S), tokens := s'.tokens }

/-- A provisional indentation gives way to a block at its column. -/
def endProvisional (d : Nat) (s : Scanner) : Scanner :=
  match s.indents with
  | i :: is =>
    if s.indent ≤ (d : Int) && !i.isBlock then { s with indent := i.former, indents := is } else s
  | [] => s

theorem openBlock_eq (hdepth : s.depth = 0) (number : Nat) (opening : Lexeme) (m : Mark) :
    s.openBlock d number opening m =
      if (endProvisional d s).indent < (d : Int) then
        Scanner.insert { endProvisional d s with
          indent := (d : Int)
          indents := ⟨(endProvisional d s).indent, true⟩ :: (endProvisional d s).indents }
          number m opening
      else endProvisional d s := by
  unfold openBlock
  rw [inFlow_eq_false hdepth]
  rfl

theorem endProvisional_eq (hindent : s.indent = indentOf S provisional)
    (hindents : s.indents = indentsOf S provisional) (hd : indentOf S provisional ≤ d) :
    endProvisional d s = { s with indent := level S, indents := levels S } := by
  unfold endProvisional
  cases provisional with
  | true =>
      have hle : decide (s.indent ≤ (d : Int)) = true := by
        rw [hindent]
        exact decide_eq_true hd
      rw [hindents]
      show (if (decide (s.indent ≤ (d : Int)) && !false) = true then _ else _) = _
      rw [hle]
      rfl
  | false =>
      have hsame : { s with indent := level S, indents := levels S } = s := by
        rw [← show s.indent = level S from hindent, ← show s.indents = levels S from hindents]
      rw [hsame, hindents]
      cases S with
      | nil => rfl
      | cons e S =>
          show (if (decide (s.indent ≤ (d : Int)) && !true) = true then _ else _) = _
          rw [Bool.not_true, Bool.and_false, if_neg Bool.false_ne_true]

theorem openBlock_opened {xs ys : List Lexeme} (hdepth : s.depth = 0)
    (hindent : s.indent = indentOf S provisional) (hindents : s.indents = indentsOf S provisional)
    (hlexemes : s.lexemes = xs ++ ys) (hd : indentOf S provisional ≤ d) (opening : Lexeme)
    (m : Mark) : Opened d S opening xs ys s (s.openBlock d xs.length opening m) := by
  rw [openBlock_eq hdepth, endProvisional_eq hindent hindents hd]
  by_cases hlt : level S < d
  · rw [if_pos hlt]
    refine ⟨?_, ?_⟩
    · rw [begins, if_pos hlt]
      exact lexemes_insert
        (s := { s with indent := (d : Int), indents := ⟨level S, true⟩ :: levels S }) hlexemes m
        opening
    · rw [opened, if_pos hlt]
      rfl
  · rw [if_neg hlt]
    refine ⟨?_, ?_⟩
    · rw [begins, if_neg hlt]
      exact hlexemes
    · rw [opened, if_neg hlt]

/-! ### Settling inside a block -/

theorem settle_inside (hskip : (s.withCursor (s.cursor.look 1)).skipToToken = .ok t)
    (h : Standing S provisional allowed n r ls t) (hinside : indentOf S provisional ≤ n) :
    ∃ s', s.settle = .ok s' ∧ Standing S provisional allowed n r ls s' := by
  obtain ⟨k, hkeys, hk⟩ := h.keys
  have hdrop := dropStaleKeys_of_impossible (s := t) (by rw [hkeys]; simpa using hk)
  refine ⟨_, settle_eq hskip hdrop, ?_⟩
  rw [closeBlocks_inside (by rw [h.indent, h.column]; exact hinside)]
  exact ⟨⟨h.rest, h.column, h.indent, h.indents, h.pair, h.lexemes, h.ordinary⟩, h.depth,
    h.keyAllowed, h.keys⟩

/-! ### Keys -/

/-- A key has been read, and its colon comes next, on the same line and not too far off. -/
structure KeyRead (S : List Nat) (provisional : Bool) (d : Nat) (r : List Char) (ls : List Lexeme)
    (token : Lexeme) (start : Nat) (s : Scanner) : Prop extends
    Reached S provisional d r (ls ++ [token]) s where
  depth : s.depth = 0
  keys : ∃ k, s.keys = [k] ∧ k.possible = true ∧ k.number = ls.length ∧ k.mark.column = start ∧
    k.mark.line = s.mark.line ∧ s.mark.index ≤ k.mark.index + 1024

theorem settle_key (h : KeyRead S provisional d r ls token start s) (hr : Stops r)
    (hd : indentOf S provisional ≤ d) :
    ∃ s', s.settle = .ok s' ∧ AtColon S provisional d r ls token start s' := by
  obtain ⟨k, hkeys, hpossible, hnumber, hcolumn, hline, hindex⟩ := h.keys
  have hstale : isStale s.mark k = false := by
    simp only [isStale, hpossible, hline, Bool.true_and, Bool.or_eq_false_iff,
      decide_eq_false_iff_not]
    omega
  have hskip := skipToToken_stop (s := s.withCursor (s.cursor.look 1)) hr h.rest
  have hdrop := dropStaleKeys_of_fresh
    (s := (s.withCursor (s.cursor.look 1)).withCursor ((s.cursor.look 1).look 1))
    (by show ∀ k ∈ s.keys, isStale s.mark k = false
        rw [hkeys]
        simpa using hstale)
  refine ⟨_, settle_eq hskip hdrop, ?_⟩
  rw [closeBlocks_inside (by show s.indent ≤ s.cursor.column; rw [h.indent, h.column]; exact hd)]
  exact ⟨⟨h.rest, h.column, h.indent, h.indents, h.pair, h.lexemes, h.ordinary⟩, h.depth,
    k, hkeys, hpossible, hnumber, hcolumn⟩

theorem level_le_indentOf (S : List Nat) (provisional : Bool) :
    level S ≤ indentOf S provisional := by
  cases provisional with
  | false => exact Int.le_refl _
  | true =>
      show level S ≤ level S + 1
      omega

/-- What is left behind on the same line is near enough to be a key. -/
theorem near_of_along {k : KeyCandidate} {c : Cursor} {m : Nat} (hmark : k.mark = s.mark)
    (halong : Cursor.Along m s.cursor c) (hlength : m ≤ 1024) :
    k.mark.line = c.mark.line ∧ c.mark.index ≤ k.mark.index + 1024 := by
  rw [hmark, halong.line, halong.index]
  exact ⟨rfl, Nat.add_le_add_left hlength _⟩

/-- A plain key is read. -/
theorem fetchPlain_key {u : List Char} (hu : Cursor.Words u) (hcomment : u.head? ≠ some '#')
    (hgap : isGap (r.headD '\x00') = true) (hlength : u.length ≤ 1024)
    (hs : Standing S provisional true d (u ++ ':' :: r) ls s) (hmarker : s.cursor.isMarker = false)
    (hd : indentOf S provisional ≤ d) :
    ∃ t, s.fetchPlain = .ok t ∧ t.delivered = s.delivered ∧
      KeyRead S false (d + u.length) (':' :: r) ls (.scalar .plain (String.ofList u)) d t := by
  obtain ⟨k, hsave, hpossible, hk⟩ := saveKey_eq hs
  obtain ⟨hnumber, hmark, -⟩ := hk (hpossible rfl)
  obtain ⟨c, halong, hmargin, hscalar⟩ := Cursor.plainScalar_key hu hcomment hs.rest hgap hmarker
    (show level S ≤ s.cursor.column by
      rw [hs.column]
      exact Int.le_trans (level_le_indentOf S provisional) hd)
  have hnear := near_of_along hmark halong hlength
  refine ⟨_, fetchPlain_eq hs hsave hscalar, rfl, ?_⟩
  exact {
    rest := halong.rest_append hs.rest
    column := halong.column.trans (congrArg (· + _) hs.column)
    indent := rfl
    indents := rfl
    pair := hs.pair
    lexemes := (lexemes_push _ _ _).trans (congrArg (· ++ _) hs.lexemes)
    ordinary := ordinary_concat hs.ordinary rfl
    depth := hs.depth
    keys := ⟨k, rfl, hpossible rfl, hnumber, hmark ▸ hs.column, hnear⟩ }

/-- A key in quotes is read. -/
theorem fetchQuoted_key {single : Bool} {u pu : List Char} (hu : Spelled single u pu)
    (hlength : pu.length + 2 ≤ 1024)
    (hs : Standing S provisional true d
      (quoteMark single :: (pu ++ quoteMark single :: ':' :: r)) ls s)
    (hd : indentOf S provisional ≤ d) :
    ∃ t, s.fetchQuoted single = .ok t ∧ t.delivered = s.delivered ∧
      KeyRead S provisional (d + (pu.length + 2)) (':' :: r) ls
        (.scalar (if single then .singleQuoted else .doubleQuoted) (String.ofList u)) d t := by
  obtain ⟨k, hsave, hpossible, hk⟩ := saveKey_eq hs
  obtain ⟨hnumber, hmark, -⟩ := hk (hpossible rfl)
  obtain ⟨c, halong, hrest, hscalar⟩ := Cursor.quotedScalar_spelled hu hs.rest (.inr rfl)
    (show indentOf S provisional ≤ s.cursor.column by rw [hs.column]; exact hd)
  have hskip := skipToToken_stop
    (s := Scanner.withCursor { s with keys := [k], keyAllowed := false } c)
    (stops_cons (r := r) (show isGap ':' = false from rfl) (by decide)) hrest
  have hnear := near_of_along hmark halong hlength
  refine ⟨_, fetchQuoted_eq hs hsave hscalar hskip, rfl, ?_⟩
  exact {
    rest := hrest
    column := halong.column.trans (congrArg (· + _) hs.column)
    indent := hs.indent
    indents := hs.indents
    pair := hs.pair
    lexemes := (lexemes_push _ _ _).trans (congrArg (· ++ _) hs.lexemes)
    ordinary := ordinary_concat hs.ordinary rfl
    depth := hs.depth
    keys := ⟨k, rfl, hpossible rfl, hnumber, hmark ▸ hs.column, hnear⟩ }

/-- A key on its line. -/
theorem leads_key {style : Style} {u p : List Char} (h : Inline style u p)
    (hgap : isGap (r.headD '\x00') = true) (hlength : p.length ≤ 1024)
    (hd : indentOf S provisional ≤ d)
    (hmarker : d = 0 → (Cursor.ofText (p ++ ':' :: r)).isMarker = false) :
    Leads (standing S provisional true d (p ++ ':' :: r) ls)
      (atColon S (style != .plain && provisional) (d + p.length) (':' :: r) ls
        (.scalar style (String.ofList u)) d) where
  size_lt := by show ls.length < (ls ++ [_]).length; simp
  next s hs := by
    have hs' : Standing S provisional true d (p ++ ':' :: r) ls s := hs
    have hread : ∃ t, s.dispatch = .ok t ∧ t.delivered = s.delivered ∧
        KeyRead S (style != .plain && provisional) (d + p.length) (':' :: r) ls
          (.scalar style (String.ofList u)) d t := by
      rw [h.dispatch hs'.toReached hd hmarker]
      cases h with
      | plain hu hstart =>
          rw [fetchLexeme_plain (hstart.append _) hs'.rest hs'.depth]
          exact fetchPlain_key hu
            (fun heq => hstart.no_indicator (by rw [Option.some.inj heq]; decide))
            hgap hlength hs' (isMarker_of_rest hs'.rest (hs'.column ▸ hmarker)) hd
      | @quoted single u pu hu =>
          have hs'' : Standing S provisional true d
              (quoteMark single :: (pu ++ quoteMark single :: ':' :: r)) ls s := by simpa using hs'
          have hsize : (quoteMark single :: (pu ++ [quoteMark single])).length = pu.length + 2 := by
            simp
          have hstyle : ((if single then Style.singleQuoted else .doubleQuoted) != .plain &&
              provisional) = provisional := by cases single <;> rfl
          rw [hsize] at hlength ⊢
          rw [fetchLexeme_quoted hs''.rest, hstyle]
          exact fetchQuoted_key hu hlength hs'' hd
    obtain ⟨t, hdispatch, hdelivered, ht⟩ := hread
    have hinside : indentOf S (style != .plain && provisional) ≤ (d + p.length : Nat) := by
      have hle : indentOf S (style != .plain && provisional) ≤ indentOf S provisional := by
        cases style != .plain with
        | true => exact Int.le_refl _
        | false => exact level_le_indentOf S provisional
      omega
    obtain ⟨s', hsettle, hs''⟩ := settle_key ht (stops_cons rfl (by decide)) hinside
    exact ⟨s', next_eq hdispatch hsettle, (settle_delivered hsettle).trans hdelivered, hs''⟩

/-! ### Values -/

/-- A scanner that has opened a block for an entry or an item at a column. -/
structure InBlock (S : List Nat) (provisional allowed : Bool) (start : Nat) (ls : List Lexeme)
    (s : Scanner) : Prop where
  indent : s.indent = indentOf (opened start S) provisional
  indents : s.indents = indentsOf (opened start S) provisional
  pair : s.inPair = false
  lexemes : s.lexemes = ls
  ordinary : ∀ l ∈ ls, l.isOrdinary = true
  depth : s.depth = 0
  keyAllowed : s.keyAllowed = allowed
  keys : ∃ k, s.keys = [k] ∧ k.possible = false

/-- A scanner inside a block settles in front of the next token. -/
theorem InBlock.settle {u : Scanner} {b : Bool} (h : InBlock S provisional b start ls t)
    (hskip : (t.withCursor (t.cursor.look 1)).skipToToken = .ok u)
    (hframe : u = { t with cursor := u.cursor, keyAllowed := u.keyAllowed })
    (hrest : u.cursor.rest = r) (hcolumn : u.cursor.column = n) (hallowed : u.keyAllowed = allowed)
    (hstart : level S ≤ start) (hn : start < n) :
    ∃ s, t.settle = .ok s ∧ Standing (opened start S) provisional allowed n r ls s := by
  refine settle_inside hskip ?_ (indentOf_le ?_)
  · exact {
      rest := hrest
      column := hcolumn
      indent := by rw [hframe]; exact h.indent
      indents := by rw [hframe]; exact h.indents
      pair := by rw [hframe]; exact h.pair
      lexemes := by rw [hframe]; exact h.lexemes
      ordinary := h.ordinary
      depth := by rw [hframe]; exact h.depth
      keyAllowed := hallowed
      keys := by rw [hframe]; exact h.keys }
  · rw [level_opened hstart]
    exact Int.ofNat_lt.mpr hn

theorem ordinary_append {xs : List Lexeme} (h : ∀ l ∈ ls, l.isOrdinary = true)
    (h' : ∀ l ∈ xs, l.isOrdinary = true) : ∀ l ∈ ls ++ xs, l.isOrdinary = true :=
  fun l hl => (List.mem_append.mp hl).elim (h l) (h' l)

theorem ordinary_begins {opening : Lexeme} (h : opening.isOrdinary = true) :
    ∀ l ∈ begins d S opening, l.isOrdinary = true := by
  intro l hl
  unfold begins at hl
  split at hl
  · rwa [List.mem_singleton.mp hl]
  · cases hl

/-- What was read becomes a key. -/
theorem makeKey_eq {k : KeyCandidate} (hindent : s.indent = indentOf S provisional)
    (hindents : s.indents = indentsOf S provisional) (hpair : s.inPair = false)
    (hlexemes : s.lexemes = ls ++ [token]) (hordinary : ∀ l ∈ ls ++ [token], l.isOrdinary = true)
    (hdepth : s.depth = 0) (hkeys : s.keys = [k]) (hnumber : k.number = ls.length)
    (hcolumn : k.mark.column = start) (hstart : indentOf S provisional ≤ start) (colon : Mark) :
    ∃ t, s.makeKey k colon = .ok t ∧ t.cursor = s.cursor ∧ t.delivered = s.delivered ∧
      InBlock S true false start
        (ls ++ (begins start S .blockMappingStart ++ [.key, token])) t := by
  have hinsert := lexemes_insert hlexemes k.mark .key
  have hopened := openBlock_opened (s := s.insert ls.length k.mark .key) hdepth hindent hindents
    hinsert hstart .blockMappingStart colon
  generalize ht : (s.insert ls.length k.mark .key).openBlock start ls.length .blockMappingStart
    colon = t at hopened
  obtain ⟨hlexemes', hframe⟩ := hopened
  have hmake : s.makeKey k colon = .ok (t.openProvisional.setKey k.withdraw).disallowKey := by
    have hpair' : (s.insert ls.length k.mark .key).inPair = false := hpair
    unfold makeKey
    simp only [hnumber, hcolumn, hpair', Bool.false_and, Bool.false_eq_true, if_false, ht]
  have hordinary' : ∀ l ∈ ls ++ (begins start S .blockMappingStart ++ [.key, token]),
      l.isOrdinary = true := by
    refine ordinary_append (fun l hl => hordinary l (List.mem_append_left _ hl))
      (ordinary_append (ordinary_begins rfl) fun l hl => ?_)
    rcases List.mem_cons.mp hl with rfl | hl
    · rfl
    · exact hordinary l (List.mem_append_right _ hl)
  have hreached : Reached (opened start S) false t.cursor.column t.cursor.rest
      (ls ++ (begins start S .blockMappingStart ++ [.key, token])) t :=
    ⟨rfl, rfl, by rw [hframe]; rfl, by rw [hframe]; rfl, by rw [hframe]; exact hpair, hlexemes',
      hordinary'⟩
  have hprovisional := openProvisional_eq hreached (by rw [hframe]; exact hdepth) fun _ => rfl
  have hblock : (!(opened start S).isEmpty) = true := by
    rw [List.isEmpty_eq_false_iff.mpr (opened_ne_nil start S)]
    rfl
  rw [hblock] at hprovisional
  refine ⟨_, hmake, ?_, ?_, ?_⟩
  · rw [hprovisional]
    show t.cursor = _
    rw [hframe]
    rfl
  · rw [hprovisional]
    show t.delivered = _
    rw [hframe]
    rfl
  · rw [hprovisional]
    exact {
      indent := rfl
      indents := rfl
      pair := hreached.pair
      lexemes := hlexemes'
      ordinary := hordinary'
      depth := by show t.depth = 0; rw [hframe]; exact hdepth
      keyAllowed := rfl
      keys := ⟨k.withdraw, by
        show k.withdraw :: t.keys.drop 1 = _
        rw [hframe]
        show k.withdraw :: s.keys.drop 1 = _
        rw [hkeys]
        rfl, rfl⟩ }

/-- The colon after a key. -/
theorem fetchValue_eq (hs : AtColon S provisional d (':' :: r) ls token start s)
    (htab : r.head? ≠ some '\t') (hstart : indentOf S provisional ≤ start) :
    ∃ t, Cursor.Along 1 s.cursor t.cursor ∧ s.fetchValue = .ok t ∧
      t.delivered = s.delivered ∧ InBlock S true false start
        (ls ++ (begins start S .blockMappingStart ++ [.key, token, .value])) t := by
  obtain ⟨k, hkeys, hpossible, hnumber, hcolumn⟩ := hs.keys
  have hstep := (Cursor.along_advance 1 s.cursor).trans (Cursor.along_look 1 _)
  have hhead : (((s.cursor.advance 1).look 1).head == '\t') = false :=
    beq_eq_false_iff_ne.mpr (head_ne_of_head? (by rw [hstep.rest, hs.rest]; rfl) htab (by decide))
  have hflow := inFlow_eq_false hs.depth
  have hskip : (Scanner.withCursor { s with inPair := s.inFlow && !s.inMapping }
      (s.cursor.advance 1)).skipAfterValue =
        .ok { s with inPair := false, cursor := (s.cursor.advance 1).look 1 } := by
    unfold skipAfterValue
    simp only [withCursor, hhead, Bool.false_eq_true, if_false, hflow, Bool.false_and]
  obtain ⟨t, hmake, hcursor, hdelivered, ht⟩ :=
    makeKey_eq (s := { s with inPair := false, cursor := (s.cursor.advance 1).look 1 })
      hs.indent hs.indents rfl hs.lexemes hs.ordinary hs.depth hkeys hnumber hcolumn hstart s.mark
  refine ⟨t.push s.mark .value, ?_, ?_, hdelivered, ?_⟩
  · show Cursor.Along 1 s.cursor t.cursor
    rw [hcursor]
    exact hstep
  · unfold fetchValue
    simp only [key_of_keys hkeys, hpossible, if_true, bind, Except.bind, hskip, hmake]
  · refine ⟨ht.indent, ht.indents, ht.pair, ?_, ?_, ht.depth, ht.keyAllowed, ht.keys⟩
    · rw [lexemes_push, ht.lexemes]
      simp
    · have hordinary := ordinary_concat ht.ordinary (show Lexeme.value.isOrdinary = true from rfl)
      simpa using hordinary

/-- Where the value of an entry begins. -/
theorem AtColon.dispatch (hs : AtColon S provisional d (':' :: r) ls token start s)
    (hgap : isGap (r.headD '\x00') = true) (hd : indentOf S provisional ≤ d) :
    s.dispatch = s.fetchValue := by
  rw [hs.toReached.dispatch rfl (by decide) hd fun _ => isMarker_cons (by decide) (by decide)]
  have hnext : isGap (s.cursor.peek 1) = true := by
    rw [Cursor.peek_one_of_rest hs.rest]
    exact hgap
  unfold fetchLexeme
  rw [Cursor.head_of_rest hs.rest]
  show (if (isGap (s.cursor.peek 1) || _) = true then _ else _) = _
  rw [hnext, Bool.true_or, if_pos rfl]

/-- A value on the line of its key. -/
theorem leads_value (hr : Stops r) (hstart : indentOf S provisional ≤ start) (hd : start ≤ d) :
    Leads (atColon S provisional d (':' :: ' ' :: r) ls token start)
      (standing (opened start S) true false (d + 2) r
        (ls ++ (begins start S .blockMappingStart ++ [.key, token, .value]))) where
  size_lt := by
    show (ls ++ [token]).length < _
    simp [standing, Stage.of]
  next s hs := by
    have hs' : AtColon S provisional d (':' :: ' ' :: r) ls token start s := hs
    obtain ⟨t, halong, hfetch, hdelivered, ht⟩ := fetchValue_eq hs' (by simp) hstart
    have hinside : indentOf S provisional ≤ (d : Int) := by omega
    have hdispatch := (hs'.dispatch rfl hinside).trans hfetch
    have hrest : (t.withCursor (t.cursor.look 1)).cursor.rest = List.replicate 1 ' ' ++ r := by
      show t.cursor.rest = _
      rw [halong.rest, hs'.rest]
      rfl
    obtain ⟨c, halong', -, hskip⟩ := skipGaps_spaces (s := t.withCursor (t.cursor.look 1)) hr hrest
      (show 1 < t.cursor.rest.length + 1 by
        rw [show t.cursor.rest = List.replicate 1 ' ' ++ r from hrest]
        simp)
    have hall := (halong.trans (Cursor.along_look 1 _)).trans halong'
    obtain ⟨s', hsettle, hs''⟩ := ht.settle hskip rfl
      (Cursor.Along.rest_append (t := [' ']) halong' hrest)
      (hall.column.trans (congrArg (· + 2) hs'.column)) ht.keyAllowed
      (Int.le_trans (level_le_indentOf S provisional) hstart) (show start < d + 2 by omega)
    exact ⟨s', next_eq hdispatch hsettle, (settle_delivered hsettle).trans hdelivered, hs''⟩

/-- A value below its key. -/
theorem leads_valueBelow (hr : Stops r) (hstart : indentOf S provisional ≤ start) (hd : start ≤ d)
    (hn : start < n) :
    Leads (atColon S provisional d (':' :: '\n' :: (List.replicate n ' ' ++ r)) ls token start)
      (standing (opened start S) true true n r
        (ls ++ (begins start S .blockMappingStart ++ [.key, token, .value]))) where
  size_lt := by
    show (ls ++ [token]).length < _
    simp [standing, Stage.of]
  next s hs := by
    have hs' : AtColon S provisional d (':' :: '\n' :: (List.replicate n ' ' ++ r)) ls token start
        s :=
      hs
    obtain ⟨t, halong, hfetch, hdelivered, ht⟩ := fetchValue_eq hs' (by simp) hstart
    have hinside : indentOf S provisional ≤ (d : Int) := by omega
    have hdispatch := (hs'.dispatch rfl hinside).trans hfetch
    have hrest : (t.withCursor (t.cursor.look 1)).cursor.rest =
        '\n' :: (List.replicate n ' ' ++ r) := by
      show t.cursor.rest = _
      rw [halong.rest, hs'.rest]
      rfl
    obtain ⟨c, hbelow, hskip⟩ := skipToToken_line (s := t.withCursor (t.cursor.look 1)) hr hrest
      ht.depth
    obtain ⟨s', hsettle, hs''⟩ := ht.settle hskip rfl hbelow.rest hbelow.column rfl
      (Int.le_trans (level_le_indentOf S provisional) hstart) hn
    exact ⟨s', next_eq hdispatch hsettle, (settle_delivered hsettle).trans hdelivered, hs''⟩

/-! ### Items -/

/-- A space is skipped. -/
theorem passInline_space {c : Cursor} {ch : Char} (hc : c.rest = ' ' :: ch :: r)
    (hgap : isGap ch = false) (hcomment : ch ≠ '#') :
    ∃ c', Cursor.Along 1 c c' ∧ c.passInline true = .ok (⟨false, true⟩, c') := by
  have hblank := isBlank_of_not_gap hgap
  have hrun : c.run (fun d => d == ' ' || true && d == '\t') = [' '] := by
    simp only [isBlank, Bool.or_eq_false_iff] at hblank
    rw [Cursor.run, hc, List.takeWhile_cons, List.takeWhile_cons]
    simp [hblank]
  have hstep := ((Cursor.along_look 1 c).trans (Cursor.along_advanceBlank 1 _)).trans
    (Cursor.along_look 1 _)
  refine ⟨((c.look 1).advanceBlank 1).look 1, hstep, ?_⟩
  have hhead : (((c.look 1).advanceBlank 1).look 1).head = ch :=
    Cursor.head_of_rest (by rw [hstep.rest, hc]; rfl)
  unfold Cursor.passInline Cursor.passBlanks
  simp only [hrun, List.length_singleton, hhead, beq_iff_eq, hcomment, if_false]
  rfl

/-- No property stands without its node. -/
theorem misplacedProperty_eq_none (hordinary : ∀ l ∈ s.lexemes, l.isOrdinary = true) :
    s.misplacedProperty? = none := by
  unfold misplacedProperty?
  split
  · rename_i t hlast
    have hmem : t ∈ s.tokens := by
      unfold lastWaiting? at hlast
      split at hlast
      · exact Array.mem_of_back? hlast
      · cases hlast
    have hproperty : t.lexeme.isProperty = false := by
      have h := hordinary t.lexeme (List.mem_map_of_mem (Array.mem_toList_iff.mpr hmem))
      rw [Lexeme.isOrdinary, Bool.and_eq_true] at h
      simpa using h.2
    rw [hproperty]
    rfl
  · rfl

/-- A bracket after a hyphen is provisionally indented. -/
theorem openProvisional_flow {ch : Char} (hs : Reached S false d r ls s) (hdepth : s.depth = 0)
    (hS : S ≠ []) (hgap : isGap ch = false) :
    (if isBreak ch || isFlow ch then s.openProvisional else s) =
      { s with indent := indentOf S (isFlow ch), indents := indentsOf S (isFlow ch) } := by
  have hbreak : isBreak ch = false := by
    simp only [isGap, isLineEnd, Bool.or_eq_false_iff] at hgap
    exact hgap.2.1
  rw [hbreak, Bool.false_or]
  cases isFlow ch with
  | true =>
      have hprovisional := openProvisional_eq hs hdepth fun _ => rfl
      rw [List.isEmpty_eq_false_iff.mpr hS] at hprovisional
      exact hprovisional
  | false =>
      show s = { s with indent := indentOf S false, indents := indentsOf S false }
      rw [← hs.indent, ← hs.indents]

/-- Behind the hyphen of an item its space is skipped, and nothing after it. -/
theorem passInline_hyphen {c : Cursor} {ch : Char} (hc : c.rest = ' ' :: ch :: r)
    (hgap : isGap ch = false) (hcomment : ch ≠ '#') :
    ∃ c₁ c₂, c.passInline true = .ok (⟨false, true⟩, c₁) ∧
      (c₁.look 2).passInline false = .ok (⟨false, false⟩, c₂) ∧ Cursor.Along 1 c (c₂.look 1) ∧
      (c₂.look 1).head = ch := by
  obtain ⟨c₁, halong₁, hinline₁⟩ := passInline_space hc hgap hcomment
  have hrest₁ : (c₁.look 2).rest = ch :: r := halong₁.rest.trans (by rw [hc]; rfl)
  obtain ⟨c₂, halong₂, -, hinline₂⟩ :=
    Cursor.passInline_nothing hrest₁ (isBlank_of_not_gap hgap) hcomment false
  have hall := (halong₁.trans (Cursor.along_look 2 _)).trans
    (halong₂.trans (Cursor.along_look 1 _))
  exact ⟨c₁, c₂, hinline₁, hinline₂, hall, Cursor.head_of_rest (halong₂.rest.trans hrest₁)⟩

/-- The hyphen of an item. -/
theorem fetchBlockEntry_eq {ch : Char}
    (hs : Standing S provisional true d ('-' :: ' ' :: ch :: r) ls s)
    (hgap : isGap ch = false) (hcomment : ch ≠ '#') (hd : indentOf S provisional ≤ d) :
    ∃ t, Cursor.Along 2 s.cursor t.cursor ∧ s.fetchBlockEntry = .ok t ∧
      t.delivered = s.delivered ∧ InBlock S (isFlow ch) true d
        (ls ++ (begins d S .blockSequenceStart ++ [.blockEntry])) t := by
  obtain ⟨k, hkeys, hk⟩ := hs.keys
  have hnone := misplacedProperty_eq_none (s := s) (hs.lexemes ▸ hs.ordinary)
  have hstep := Cursor.along_advance 1 s.cursor
  have hopened := openBlock_opened (s := s.withCursor (s.cursor.advance 1)) hs.depth hs.indent
    hs.indents (hs.lexemes.trans (List.append_nil ls).symm) hd .blockSequenceStart s.mark
  have hnumber : (s.withCursor (s.cursor.advance 1)).tokens.size = ls.length := by
    rw [size_tokens]
    exact congrArg List.length hs.lexemes
  generalize ht : (s.withCursor (s.cursor.advance 1)).openBlock d ls.length .blockSequenceStart
    s.mark = t at hopened
  obtain ⟨hlexemes, hframe⟩ := hopened
  rw [List.append_nil] at hlexemes
  have hcursor : t.cursor = s.cursor.advance 1 := by rw [hframe]; rfl
  obtain ⟨c₁, c₂, hinline₁, hinline₂, halong, hhead⟩ := passInline_hyphen (c := t.cursor)
    (show t.cursor.rest = ' ' :: ch :: r by rw [hcursor, hstep.rest, hs.rest]; rfl) hgap hcomment
  have hordinary : ∀ l ∈ ls ++ begins d S .blockSequenceStart, l.isOrdinary = true :=
    ordinary_append hs.ordinary (ordinary_begins rfl)
  have hreached : Reached (opened d S) false (c₂.look 1).column (c₂.look 1).rest
      (ls ++ begins d S .blockSequenceStart) (t.withCursor (c₂.look 1)) :=
    ⟨rfl, rfl, by rw [hframe]; rfl, by rw [hframe]; rfl, by rw [hframe]; exact hs.pair, hlexemes,
      hordinary⟩
  have hdepth : t.depth = 0 := by rw [hframe]; exact hs.depth
  have hprovisional := openProvisional_flow hreached hdepth (opened_ne_nil d S) hgap
  generalize hu : (if (isBreak ch || isFlow ch) = true then
    (t.withCursor (c₂.look 1)).openProvisional else t.withCursor (c₂.look 1)) = u at hprovisional
  have hukeys : u.keys = [k] := by
    rw [hprovisional]
    show t.keys = [k]
    rw [hframe]
    exact hkeys
  have hdrop := dropKey_eq hukeys (by rw [hk, Bool.false_and])
  refine ⟨Scanner.push (Scanner.allowKey { u with keys := [k.withdraw] }) u.mark .blockEntry,
    ?_, ?_, ?_, ?_⟩
  · show Cursor.Along 2 s.cursor u.cursor
    rw [hprovisional]
    exact (hcursor ▸ hstep).trans halong
  · unfold fetchBlockEntry
    rw [inFlow_eq_false hs.depth, if_neg Bool.false_ne_true, hs.keyAllowed, hnone]
    simp only [Bool.not_true, Bool.false_eq_true, if_false, hnumber]
    rw [show s.mark.column = d from hs.column, ht]
    simp only [skipInline, bind, Except.bind, hinline₁, withCursor, Bool.false_and,
      Bool.false_eq_true, if_false, hinline₂, hhead]
    simp only [withCursor] at hu
    rw [hu, hdrop]
    rfl
  · show u.delivered = s.delivered
    rw [hprovisional]
    show t.delivered = s.delivered
    rw [hframe]
    rfl
  · rw [hprovisional]
    exact {
      indent := rfl
      indents := rfl
      pair := hreached.pair
      lexemes := by
        rw [lexemes_push, ← List.append_assoc]
        exact congrArg (· ++ _) hlexemes
      ordinary := by
        rw [← List.append_assoc]
        exact ordinary_concat hordinary rfl
      depth := hdepth
      keyAllowed := rfl
      keys := ⟨k.withdraw, rfl, rfl⟩ }

/-- An item of a sequence, up to its node. -/
theorem leads_item {ch : Char} (hgap : isGap ch = false) (hcomment : ch ≠ '#')
    (hd : indentOf S provisional ≤ d) :
    Leads (standing S provisional true d ('-' :: ' ' :: ch :: r) ls)
      (standing (opened d S) (isFlow ch) true (d + 2) (ch :: r)
        (ls ++ (begins d S .blockSequenceStart ++ [.blockEntry]))) where
  size_lt := by
    show ls.length < _
    simp [standing, Stage.of]
  next s hs := by
    have hs' : Standing S provisional true d ('-' :: ' ' :: ch :: r) ls s := hs
    obtain ⟨t, halong, hfetch, hdelivered, ht⟩ := fetchBlockEntry_eq hs' hgap hcomment hd
    have hdispatch : s.dispatch = s.fetchBlockEntry := by
      rw [hs'.toReached.dispatch rfl (by decide) hd fun _ => by
        simp [Cursor.isMarker, Cursor.isMarkerOf, Cursor.peek, Cursor.ofText]]
      have hnext : s.cursor.peek 1 = ' ' := Cursor.peek_one_of_rest hs'.rest
      unfold fetchLexeme
      rw [Cursor.head_of_rest hs'.rest, hnext]
      rfl
    have hrest : t.cursor.rest = ch :: r := by rw [halong.rest, hs'.rest]; rfl
    have hskip := skipToToken_stop (s := t.withCursor (t.cursor.look 1)) (stops_cons hgap hcomment)
      hrest
    obtain ⟨s', hsettle, hs''⟩ := ht.settle hskip rfl hrest
      (halong.column.trans (congrArg (· + 2) hs'.column)) ht.keyAllowed
      (Int.le_trans (level_le_indentOf S provisional) hd) (show d < d + 2 by omega)
    exact ⟨s', next_eq (hdispatch.trans hfetch) hsettle,
      (settle_delivered hsettle).trans hdelivered, hs''⟩

/-! ### The beginning and the end -/

/-- A scanner at the beginning of a text stands in front of its first token. -/
theorem settle_ofText (hr : Stops r) :
    ∃ s, (Scanner.ofText r).settle = .ok s ∧ Standing [] false true 0 r [.streamStart] s := by
  refine settle_inside (skipToToken_stop (s := (Scanner.ofText r).withCursor _) hr rfl) ?_
    (by decide)
  exact ⟨⟨rfl, rfl, rfl, rfl, rfl, rfl, by decide⟩, rfl, rfl, .none, rfl, rfl⟩

theorem openAt_neg_one (S : List Nat) : openAt (-1) S = [] := by
  induction S with
  | nil => rfl
  | cons d S ih =>
      have hd : (-1 : Int) < d := by omega
      rw [openAt, List.dropWhile_cons_of_pos (by simpa using hd)]
      exact ih

theorem ends_neg_one (S : List Nat) : ends (-1) S = List.replicate S.length .blockEnd := by
  induction S with
  | nil => rfl
  | cons d S ih =>
      have hd : (-1 : Int) < d := by omega
      rw [ends, List.takeWhile_cons_of_pos (by simpa using hd), List.length_cons,
        List.length_cons, List.replicate_succ, List.replicate_succ, ← ih]
      rfl

/-- At the end of the text all blocks end. -/
theorem dispatch_end (hs : Standing S provisional allowed d r ls s)
    (hend : r.headD '\x00' = '\x00') :
    ∃ s', s.dispatch = .ok s' ∧ s'.delivered = s.delivered ∧
      Finished (ls ++ List.replicate S.length .blockEnd) s' := by
  obtain ⟨k, hkeys, hk⟩ := hs.keys
  generalize hu : { s with cursor := s.cursor.endLine, keys := [k.withdraw] } = u
  obtain ⟨hlexemes, hframe⟩ : Closed (-1) S u (u.closeBlocks (-1)) := by
    subst hu
    exact closeBlocks_levels hs.depth hs.indent hs.indents (neg_one_le_level S)
  rw [openAt_neg_one] at hframe
  rw [ends_neg_one] at hlexemes
  generalize ht : u.closeBlocks (-1) = t at hlexemes hframe
  have hdrop : t.dropKey = .ok { t with keys := [k.withdraw] } :=
    dropKey_eq (k := k.withdraw) (by rw [hframe, ← hu]) rfl
  have hhead : s.cursor.head = '\x00' := by rw [Cursor.head_eq_headD, hs.rest, hend]
  refine ⟨Scanner.push (Scanner.disallowKey { t with keys := [k.withdraw] }) t.mark .streamEnd,
    ?_, ?_, ?_⟩
  · unfold Scanner.dispatch
    rw [hhead]
    show s.fetchStreamEnd = _
    unfold fetchStreamEnd
    simp only [withCursor, hkeys, List.any_cons, List.any_nil, hk, Bool.and_false,
      Bool.or_false, Bool.false_eq_true, if_false, List.map_cons, List.map_nil]
    unfold endBlocks
    simp only [hu, bind, Except.bind, ht, hdrop]
    rfl
  · show t.delivered = s.delivered
    rw [hframe, ← hu]
  · refine ⟨?_, ?_, ?_⟩
    · show lexemes (Scanner.push _ _ _) = _
      rw [lexemes_push]
      refine congrArg (· ++ [.streamEnd]) (hlexemes.trans (congrArg (· ++ _) ?_))
      rw [← hu]
      exact hs.lexemes
    · intro l hl
      rcases List.mem_append.mp hl with hl | hl
      · have hordinary := hs.ordinary l hl
        rw [Lexeme.isOrdinary, Bool.and_eq_true, bne_iff_ne] at hordinary
        exact hordinary.1
      · rw [List.eq_of_mem_replicate hl]
        decide
    · intro k' hk'
      rw [List.mem_singleton.mp hk']
      rfl

/-- A plain scalar that ends with the text is read. -/
theorem fetchPlain_last {u : List Char} (hu : Cursor.Words u) (hcomment : u.head? ≠ some '#')
    (hs : Standing S provisional false d u ls s) (hmarker : s.cursor.isMarker = false)
    (hd : level S < d) :
    ∃ t, s.fetchPlain = .ok t ∧ t.delivered = s.delivered ∧
      Standing S false false (d + u.length) [] (ls ++ [.scalar .plain (String.ofList u)]) t := by
  obtain ⟨k, hkeys, hk⟩ := hs.keys
  have hsave : s.saveKey = { s with keys := [k] } := by
    unfold saveKey
    rw [if_neg (by rw [hs.keyAllowed]; exact Bool.false_ne_true), ← hkeys]
  obtain ⟨c, halong, hmargin, hscalar⟩ := Cursor.plainScalar_last hu hcomment hs.rest hmarker
    (show level S ≤ s.cursor.column by rw [hs.column]; exact Int.le_of_lt hd)
  refine ⟨_, fetchPlain_eq hs hsave hscalar, rfl, ?_⟩
  exact {
    rest := by show c.rest = []; rw [halong.rest, hs.rest, List.drop_length]
    column := halong.column.trans (congrArg (· + _) hs.column)
    indent := rfl
    indents := rfl
    pair := hs.pair
    lexemes := (lexemes_push _ _ _).trans (congrArg (· ++ _) hs.lexemes)
    ordinary := ordinary_concat hs.ordinary rfl
    depth := hs.depth
    keyAllowed := hmargin
    keys := ⟨k, rfl, hk⟩ }

/-- A plain scalar that ends with the text, inside a block and on a line where no key is allowed. -/
theorem leads_last {ch : Char} {x : List Char} (hu : Cursor.Words (ch :: x))
    (hstart : PlainStart ch x) (hd : level S < d) (hS : S ≠ []) :
    Leads (standing S provisional false d (ch :: x) ls)
      (standing S false false (d + (ch :: x).length) []
        (ls ++ [.scalar .plain (String.ofList (ch :: x))])) where
  size_lt := by show ls.length < (ls ++ [_]).length; simp
  next s hs := by
    have hs' : Standing S provisional false d (ch :: x) ls s := hs
    have hzero : d ≠ 0 := ne_zero_of_inside hS hd
    obtain ⟨t, hfetch, hdelivered, ht⟩ := fetchPlain_last hu
      (fun heq => hstart.no_indicator (by rw [Option.some.inj heq]; decide)) hs'
      (Cursor.not_isMarker (by rwa [hs'.column])) hd
    have hinline : Inline .plain (ch :: x) (ch :: x) := .plain hu hstart
    obtain ⟨_, _, heq, hgap, -, hdirective⟩ := hinline.head_cases
    cases heq
    have hdispatch := (hs'.toReached.dispatch hgap hdirective (indentOf_le hd)
      (absurd · hzero)).trans ((fetchLexeme_plain hstart hs'.rest hs'.depth).trans hfetch)
    have hskip := skipToToken_stop (s := t.withCursor (t.cursor.look 1)) stops_nil ht.rest
    obtain ⟨s', hsettle, hs''⟩ := settle_inside hskip
      ⟨⟨ht.rest, ht.column, ht.indent, ht.indents, ht.pair, ht.lexemes, ht.ordinary⟩, ht.depth,
        ht.keyAllowed, ht.keys⟩
      (show level S ≤ (d + (ch :: x).length : Nat) by omega)
    exact ⟨s', next_eq hdispatch hsettle, (settle_delivered hsettle).trans hdelivered, hs''⟩

end YamlDelta.Markup
