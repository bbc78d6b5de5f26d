/-
Block scalars are read as their lines were set.

A text is set as a block by writing its lines below each other, each behind the same number
of spaces, while empty lines stay empty (`setLines`).  The header says nothing about that
number, so it is found out from the first line with text in it; this is why that line must
not begin with a space.  It also matters what the text ends with.  All line breaks but the
last are lines of the block, and what happens to the last is said by the header, if the
block has a line with text, or if it keeps its line breaks, or has none (`blockScalar_lines`).
-/
import YamlDelta.Markup.Token.Block
import YamlDelta.Proofs.Markup.Motion
import YamlDelta.Proofs.Markup.Quotes

namespace YamlDelta.Markup

/-- Lines below each other at a column, in front of what comes after them.  Empty lines stay
empty. -/
def setLines (column : Nat) : List (List Char) → List Char → List Char
  | [], after => after
  | l :: ls, after =>
    (if l.isEmpty then [] else List.replicate column ' ' ++ l) ++ '\n' :: setLines column ls after

/-- Lines with their line breaks. -/
def unlines (ls : List (List Char)) : List Char :=
  ls.flatMap (· ++ ['\n'])

theorem unlines_append (ls ms : List (List Char)) : unlines (ls ++ ms) = unlines ls ++ unlines ms :=
  List.flatMap_append

theorem unlines_cons (l : List Char) (ls : List (List Char)) :
    unlines (l :: ls) = l ++ '\n' :: unlines ls := by
  simp [unlines]

theorem unlines_replicate (n : Nat) : unlines (List.replicate n []) = List.replicate n '\n' := by
  induction n with
  | zero => rfl
  | succ n ih =>
      rw [List.replicate_succ, unlines_cons, ih]
      rfl

theorem length_setLines (column : Nat) (ls : List (List Char)) (after : List Char) :
    ls.length + after.length ≤ (setLines column ls after).length := by
  induction ls with
  | nil =>
      rw [setLines, List.length_nil, Nat.zero_add]
  | cons l ls ih =>
      rw [setLines, List.length_append, List.length_cons, List.length_cons]
      omega

theorem setLines_replicate_append (column n : Nat) (ls : List (List Char)) (after : List Char) :
    setLines column (List.replicate n [] ++ ls) after =
      List.replicate n '\n' ++ setLines column ls after := by
  induction n with
  | zero => rfl
  | succ n ih =>
      rw [List.replicate_succ, List.cons_append, setLines, ih]
      rfl

theorem setLines_replicate (column n : Nat) (after : List Char) :
    setLines column (List.replicate n []) after = List.replicate n '\n' ++ after := by
  have h := setLines_replicate_append column n [] after
  rwa [List.append_nil] at h

/-- Lines are empty up to the first with text in it, if there is one. -/
theorem empty_or_text (ls : List (List Char)) :
    (∃ n, ls = List.replicate n []) ∨
      ∃ n l ms, ls = List.replicate n [] ++ l :: ms ∧ l ≠ [] := by
  induction ls with
  | nil => exact .inl ⟨0, rfl⟩
  | cons l ls ih =>
      by_cases hl : l = []
      · subst hl
        rcases ih with ⟨n, rfl⟩ | ⟨n, l, ms, rfl, hl⟩
        · exact .inl ⟨n + 1, rfl⟩
        · exact .inr ⟨n + 1, l, ms, rfl, hl⟩
      · exact .inr ⟨0, l, ls, rfl, hl⟩

namespace Cursor

variable {c c' c₀ : Cursor} {r : List Char}

/-! ### Indentation -/

theorem run_spaces {n : Nat} (hc : c.rest = List.replicate n ' ' ++ r) (hr : r.head? ≠ some ' ') :
    c.run (· == ' ') = List.replicate n ' ' := by
  rw [Cursor.run, hc, List.takeWhile_append_of_pos (fun ch hch => by
    rw [List.eq_of_mem_replicate hch]
    rfl)]
  cases r with
  | nil => rw [List.takeWhile_nil, List.append_nil]
  | cons ch r =>
      have hne : (ch == ' ') = false := by
        rw [beq_eq_false_iff_ne]
        rintro rfl
        exact hr rfl
      rw [List.takeWhile_cons, hne, if_neg Bool.false_ne_true, List.append_nil]

/-- As many spaces as are wanted, or fewer. -/
structure Indented (column n : Nat) (r : List Char) (c : Cursor) : Prop where
  rest : c.rest = List.replicate n ' ' ++ r
  le : c.column + n ≤ column
  enough : c.column + n = column ∨ r.head? ≠ some ' '

theorem Indented.min_run {column n : Nat} (h : Indented column n r c) :
    min (c.run (· == ' ')).length (column - c.column) = n := by
  obtain ⟨hrest, hle, henough⟩ := h
  rcases henough with heq | hhead
  · have hrun : n ≤ (c.run (· == ' ')).length := by
      rw [Cursor.run, hrest, List.takeWhile_append_of_pos (fun ch hch => by
        rw [List.eq_of_mem_replicate hch]
        rfl), List.length_append, List.length_replicate]
      exact Nat.le_add_right _ _
    omega
  · rw [run_spaces hrest hhead, List.length_replicate]
    omega

/-- Where the indentation ends, and not at the column looked for, there is no space. -/
theorem Indented.eq_zero {column n : Nat} (h : Indented column n r c)
    (hend : c.column = column ∨ c.head ≠ ' ') : n = 0 := by
  obtain ⟨hrest, hle, -⟩ := h
  rcases hend with heq | hhead
  · omega
  · cases n with
    | zero => rfl
    | succ n => exact absurd (head_of_rest hrest) hhead

theorem passIndent_spaces {column n fuel : Nat} (h : Indented column n r c)
    (hfuel : column < fuel + c.column) :
    ∃ c', Along n c c' ∧ c'.atMargin = c.atMargin ∧ passIndent fuel column c = c' := by
  induction fuel generalizing c n with
  | zero =>
      have hle := h.le
      omega
  | succ fuel ih =>
      rw [passIndent]
      have h' : Indented column n r (c.look window) := ⟨h.rest, h.le, h.enough⟩
      have hmin := h'.min_run
      have hseen : window ≤ (c.look window).seen := Nat.le_max_right _ _
      simp only [hmin]
      generalize hk : min n (c.look window).seen = k
      have hle : k ≤ n := by omega
      have hstep := (along_look window c).trans (along_advanceBlank k (c.look window))
      rw [Nat.zero_add] at hstep
      -- what is left of the indentation
      have hleft : Indented column (n - k) r ((c.look window).advanceBlank k) := by
        have hcolumn := hstep.column
        refine ⟨?_, ?_, ?_⟩
        · rw [hstep.rest, h.rest,
            List.drop_append_of_le_length (by rw [List.length_replicate]; exact hle),
            List.drop_replicate]
        · have := h.le
          omega
        · have := h.enough
          rw [hcolumn]
          refine this.imp_left fun heq => ?_
          omega
      split
      · rename_i hstop
        simp only [Bool.or_eq_true, beq_iff_eq, Bool.and_eq_true, bne_iff_ne] at hstop
        have hzero : n - k = 0 := hleft.eq_zero (hstop.imp_right And.right)
        obtain rfl : k = n := by omega
        exact ⟨_, hstep, rfl, rfl⟩
      · rename_i hgo
        have hpos : 0 < k := by
          -- nothing was read although characters had been looked at, so there was no space
          refine Nat.pos_of_ne_zero fun hzero => hgo ?_
          have hseen' : 0 < (c.look window).seen := Nat.lt_of_lt_of_le (by decide) hseen
          have hn : n = 0 := by omega
          subst hzero hn
          rcases hleft.enough with heq | hhead
          · simp [← heq]
          · have hne : ((c.look window).advanceBlank 0).head ≠ ' ' := by
              rw [head_eq_headD, hleft.rest]
              cases r with
              | nil => decide
              | cons ch r => exact fun heq => hhead (congrArg some heq)
            have hpos : ((c.look window).advanceBlank 0).seen ≠ 0 := Nat.ne_of_gt hseen'
            simp [hne, hpos]
        obtain ⟨c', halong, hmargin, hpass⟩ := ih hleft (by
          have hcolumn := hstep.column
          omega)
        refine ⟨c', ?_, hmargin, hpass⟩
        have hall := hstep.trans halong
        rwa [Nat.add_sub_cancel' hle] at hall

theorem passIndentation_spaces {column n : Nat} (h : Indented column n r c) :
    ∃ c', Along n c c' ∧ c'.atMargin = c.atMargin ∧ c.passIndentation column = c' := by
  rw [passIndentation]
  split
  · have h' : Indented column n r (c.look window) := ⟨h.rest, h.le, h.enough⟩
    have hstep := (along_look window c).trans (along_advanceBlank n (c.look window))
    rw [Nat.zero_add] at hstep
    refine ⟨(c.look window).advanceBlank n, hstep, rfl, ?_⟩
    simp only [h'.min_run]
  · obtain ⟨c', halong, hmargin, hpass⟩ :=
      passIndent_spaces h (show column < column + 1 + c.column by omega)
    refine ⟨c'.look 2, halong.trans (along_look 2 c'), hmargin, ?_⟩
    rw [hpass]

/-- The line that comes after empty ones: it is not empty itself, and indented up to the column at
most. -/
structure Follows (column n : Nat) (r : List Char) : Prop where
  le : n ≤ column
  enough : n = column ∨ r.head? ≠ some ' '
  not_break : isBreak (r.headD '\x00') = false

/-- Empty lines are counted, and the indentation after them is read. -/
theorem passEmptyLines_lines {column e n : Nat} (hr : Follows column n r) {fuel : Nat}
    (hfuel : e < fuel) (hc : Below (List.replicate e '\n' ++ (List.replicate n ' ' ++ r)) 0 c₀ c)
    (breaks : Nat) :
    ∃ c', Below r n c₀ c' ∧ passEmptyLines column fuel breaks c = (breaks + e, c') := by
  have hzero : c.column = 0 := hc.column
  induction e generalizing c fuel breaks with
  | zero =>
      obtain ⟨fuel, rfl⟩ := Nat.exists_eq_succ_of_ne_zero (Nat.ne_of_gt hfuel)
      have hindented : Indented column n r c :=
        ⟨hc.rest, by rw [hzero, Nat.zero_add]; exact hr.le,
          by rw [hzero, Nat.zero_add]; exact hr.enough⟩
      obtain ⟨c', halong, hmargin, hpass⟩ := passIndentation_spaces hindented
      have hbelow := Below.along (t := List.replicate n ' ') hc halong List.length_replicate hmargin
      rw [Nat.zero_add] at hbelow
      refine ⟨c', hbelow, ?_⟩
      have hhead : isBreak c'.head = false := by
        rw [hbelow.head]
        exact hr.not_break
      rw [passEmptyLines, hpass]
      simp only [hhead, Bool.false_eq_true, if_false]
      rfl
  | succ e ih =>
      obtain ⟨fuel, rfl⟩ := Nat.exists_eq_succ_of_ne_zero (Nat.ne_zero_of_lt hfuel)
      -- an empty line has no indentation
      have hindented : Indented column 0
          ('\n' :: (List.replicate e '\n' ++ (List.replicate n ' ' ++ r))) c :=
        ⟨hc.rest, by rw [hzero]; exact Nat.zero_le _, .inr (by simp)⟩
      obtain ⟨c', halong, hmargin, hpass⟩ := passIndentation_spaces hindented
      have hbelow := Below.along (t := []) hc halong rfl hmargin
      have hlater := hbelow.passBreak
      obtain ⟨c'', hc'', hpass'⟩ :=
        ih (Nat.lt_of_succ_lt_succ hfuel) hlater (breaks + 1) hlater.column
      refine ⟨c'', hc'', ?_⟩
      have hhead : c'.head = '\n' := hbelow.head
      have hbreak : isBreak '\n' = true := rfl
      rw [passEmptyLines, hpass]
      simp only [hhead, hbreak, if_true]
      rw [hpass', Nat.add_assoc, Nat.add_comm 1 e]

/-- Empty lines before the text are counted, and the indentation of the text is found. -/
theorem passToText_lines {e n : Nat} (hspace : r.head? ≠ some ' ')
    (hbreak : isBreak (r.headD '\x00') = false) {fuel : Nat} (hfuel : e < fuel)
    (hc : Below (List.replicate e '\n' ++ (List.replicate n ' ' ++ r)) 0 c₀ c) (breaks : Nat) :
    ∃ c', Below r n c₀ c' ∧ passToText fuel breaks 0 c = (breaks + e, n, c') := by
  have hzero : c.column = 0 := hc.column
  induction e generalizing c fuel breaks with
  | zero =>
      obtain ⟨fuel, rfl⟩ := Nat.exists_eq_succ_of_ne_zero (Nat.ne_of_gt hfuel)
      have hrun : (c.run (· == ' ')).length = n := by
        rw [run_spaces hc.rest hspace, List.length_replicate]
      have hbelow : Below r n c₀ (c.passBlanks (· == ' ')) := by
        have h := ((hc.look 1).advanceBlank (n := n)).look 1
        rw [Nat.zero_add] at h
        rw [passBlanks, hrun]
        exact h
      refine ⟨_, hbelow, ?_⟩
      have hhead : isBreak (c.passBlanks (· == ' ')).head = false := by
        rw [hbelow.head]
        exact hbreak
      rw [passToText]
      simp only [hhead, Bool.false_eq_true, if_false, hbelow.column, Nat.zero_max]
      rfl
  | succ e ih =>
      obtain ⟨fuel, rfl⟩ := Nat.exists_eq_succ_of_ne_zero (Nat.ne_zero_of_lt hfuel)
      have hrest : c.rest = '\n' :: (List.replicate e '\n' ++ (List.replicate n ' ' ++ r)) :=
        hc.rest
      have hrun : (c.run (· == ' ')).length = 0 := by
        rw [run_eq_nil hrest rfl]
        rfl
      have hpass : c.passBlanks (· == ' ') = ((c.look 1).advanceBlank 0).look 1 := by
        rw [passBlanks, hrun]
      have hhead : (((c.look 1).advanceBlank 0).look 1).head = '\n' :=
        head_of_rest (c := ((c.look 1).advanceBlank 0).look 1) hrest
      have hcolumn : (((c.look 1).advanceBlank 0).look 1).column = 0 := hzero
      have hlater := (((hc.look 1).advanceBlank (n := 0)).look 1).passBreak
      obtain ⟨c', hc', hpass'⟩ :=
        ih (Nat.lt_of_succ_lt_succ hfuel) hlater (breaks + 1) hlater.column
      refine ⟨c', hc', ?_⟩
      have hisBreak : isBreak '\n' = true := rfl
      rw [passToText, hpass]
      simp only [hhead, hisBreak, if_true, hcolumn, Nat.max_self]
      rw [hpass', Nat.add_assoc, Nat.add_comm 1 e]

/-! ### Lines of text -/

/-- The rest of a line is read as it stands, up to its end. -/
theorem contentLine_eq (c : Cursor) :
    ∃ c', c.contentLine = (c.rest.takeWhile (fun ch => !isLineEnd ch), c') ∧
      c'.rest = c.rest.dropWhile (fun ch => !isLineEnd ch) ∧ c'.mark.line = c.mark.line := by
  have hsplit := List.takeWhile_append_dropWhile (p := fun ch => !isLineEnd ch) (l := c.rest)
  have hdrop : c.rest.drop (c.run fun ch => !isLineEnd ch).length =
      c.rest.dropWhile fun ch => !isLineEnd ch := by
    conv_lhs => rw [← hsplit]
    exact List.drop_left
  unfold contentLine
  dsimp only
  split
  · rename_i hseen
    refine ⟨_, rfl, ?_, rfl⟩
    have hlt : (c.run fun ch => !isLineEnd ch).length < c.seen := by
      have hseen' : c.seen - min (c.run fun ch => !isLineEnd ch).length c.seen ≠ 0 :=
        bne_iff_ne.mp hseen
      omega
    show c.rest.drop (min (c.run fun ch => !isLineEnd ch).length c.seen) = _
    rw [Nat.min_eq_left (Nat.le_of_lt hlt), hdrop]
  · refine ⟨_, rfl, ?_, rfl⟩
    show (c.rest.drop (min (c.run fun ch => !isLineEnd ch).length c.seen)).drop
      ((c.run fun ch => !isLineEnd ch).length -
        min (c.run fun ch => !isLineEnd ch).length c.seen) = _
    rw [List.drop_drop, Nat.add_sub_cancel' (Nat.min_le_left _ _), hdrop]

theorem contentLine_line {l x : List Char} (hl : ∀ ch ∈ l, isLineEnd ch = false)
    (hc : c.rest = l ++ '\n' :: x) :
    ∃ c', c.contentLine = (l, c') ∧ c'.rest = '\n' :: x ∧ c'.mark.line = c.mark.line := by
  have hline : ∀ ch ∈ l, (!isLineEnd ch) = true := fun ch hch => by rw [hl ch hch]; rfl
  obtain ⟨c', hc', hrest, hmark⟩ := contentLine_eq c
  refine ⟨c', ?_, ?_, hmark⟩
  · rw [hc', hc, List.takeWhile_append_of_pos hline, List.takeWhile_cons_of_neg (by decide),
      List.append_nil]
  · rw [hrest, hc, List.dropWhile_append_of_pos hline, List.dropWhile_cons_of_neg (by decide)]

theorem Starts.head?_ne (hr : Starts r) : r.head? ≠ some ' ' := by
  rintro h
  obtain ⟨ch, r', rfl⟩ : ∃ ch r', r = ch :: r' := by
    cases r with
    | nil => cases h
    | cons ch r' => exact ⟨ch, r', rfl⟩
  cases h
  cases hr.1

theorem Starts.follows {column n : Nat} (hr : Starts r) (hn : n < column) : Follows column n r :=
  ⟨Nat.le_of_lt hn, .inr hr.head?_ne, hr.2⟩

theorem follows_line (column : Nat) {l x : List Char} (hl : l ≠ [])
    (hline : ∀ ch ∈ l, isLineEnd ch = false) : Follows column column (l ++ x) := by
  obtain ⟨ch, l', rfl⟩ := List.exists_cons_of_ne_nil hl
  have hch := hline ch (List.mem_cons_self ..)
  rw [isLineEnd, Bool.or_eq_false_iff] at hch
  exact ⟨Nat.le_refl _, .inl rfl, hch.1⟩

/-- Reading goes from one line of text to the next. -/
theorem blockLines_line {column : Nat} (hcolumn : 0 < column) {l x : List Char} (hl : l ≠ [])
    (hline : ∀ ch ∈ l, isLineEnd ch = false) (hc : c.rest = l ++ '\n' :: x)
    (hat : c.column = column) (fuel : Nat) (t : BlockText) :
    ∃ d blank, Below x 0 c d ∧ blockLines true column (fuel + 1) t c =
      blockLines true column fuel
        { t.addLine true blank l with
          broken := true, empties := (d.passEmptyLines column (x.length + 2) 0).1 }
        (d.passEmptyLines column (x.length + 2) 0).2 := by
  obtain ⟨c₁, hcontent, hrest, hline₁⟩ := contentLine_line hline hc
  have hbelow : Below x 0 c (c₁.look 2).passBreak :=
    (below_passBreak (c := c₁.look 2) hrest).of_line_eq hline₁
  refine ⟨(c₁.look 2).passBreak, isBlank c.head, hbelow, ?_⟩
  obtain ⟨ch, l', rfl⟩ := List.exists_cons_of_ne_nil hl
  have hend : isEnd c.head = false := by
    have hch := hline ch (List.mem_cons_self ..)
    rw [isLineEnd, Bool.or_eq_false_iff] at hch
    rw [head_of_rest hc]
    exact hch.2
  have hin : (c.column != column || isEnd c.head) = false := by
    rw [hat, hend]
    simp
  have hzero : (column == 0) = false := beq_eq_false_iff_ne.mpr (Nat.ne_of_gt hcolumn)
  have hhead : (c₁.look 2).head = '\n' := head_of_rest (c := c₁.look 2) hrest
  have hmore : isEnd '\n' = false := rfl
  have hlength : (c₁.look 2).rest.length + 1 = x.length + 2 := by
    show c₁.rest.length + 1 = _
    rw [hrest]
    rfl
  rw [blockLines]
  simp only [hin, hzero, hcontent, hhead, hmore, hlength, Bool.false_eq_true, if_false,
    Bool.false_and]

/-- What has been read when the lines end: the last line of text, a break, and empty lines. -/
structure ReadLines (before : BlockText) (ls : List (List Char)) (t : BlockText) : Prop where
  broken : t.broken = true
  ends_text : t.acc.head? ≠ some '\n'
  text : t.acc.reverse ++ List.replicate (t.empties + 1) '\n' =
    before.acc.reverse ++ (before.joint true false).reverse ++ unlines ls

theorem joint_true (t : BlockText) (blank : Bool) :
    t.joint true blank = List.replicate (t.empties + if t.broken then 1 else 0) '\n' := rfl

/-- Lines of text are read until one comes that is indented less. -/
theorem blockLines_lines {column n : Nat} (hn : n < column) (hr : Starts r) {l : List Char}
    {ls : List (List Char)} (hl : l ≠ []) (hlines : ∀ m ∈ l :: ls, ∀ ch ∈ m, isLineEnd ch = false)
    {fuel : Nat} (hfuel : ls.length < fuel)
    (hc : c.rest = l ++ '\n' :: setLines column ls (List.replicate n ' ' ++ r))
    (hat : c.column = column) (t : BlockText) :
    ∃ t' c', blockLines true column fuel t c = (t', c') ∧ Below r n c c' ∧
      ReadLines t (l :: ls) t' := by
  induction fuel generalizing c t l ls with
  | zero => omega
  | succ fuel ih =>
      have hline := hlines l (List.mem_cons_self ..)
      obtain ⟨d, blank, hd, hstep⟩ :=
        blockLines_line (Nat.lt_of_le_of_lt (Nat.zero_le _) hn) hl hline hc hat fuel t
      rw [hstep]
      have hlast : (l.reverse ++ (t.joint true blank ++ t.acc)).head? ≠ some '\n' := by
        obtain ⟨ch, l', hrev⟩ := List.exists_cons_of_ne_nil (List.reverse_ne_nil_iff.mpr hl)
        have hch := hline ch (List.mem_reverse.mp (hrev ▸ List.mem_cons_self ..))
        rw [hrev]
        rintro ⟨⟩
        exact absurd hch (by decide)
      rcases empty_or_text ls with ⟨e, rfl⟩ | ⟨e, m, ms, rfl, hm⟩
      · -- nothing but empty lines follows
        rw [setLines_replicate] at hd ⊢
        obtain ⟨c', hc', hpass⟩ := passEmptyLines_lines (hr.follows hn)
          (show e < (List.replicate e '\n' ++ (List.replicate n ' ' ++ r)).length + 2 by
            rw [List.length_append, List.length_replicate]
            omega) hd 0
        rw [hpass, Nat.zero_add]
        refine ⟨{ t.addLine true blank l with broken := true, empties := e }, c', ?_, hc', rfl,
          hlast, ?_⟩
        · cases fuel with
          | zero => rfl
          | succ fuel =>
              have hout : (c'.column != column || isEnd c'.head) = true := by
                rw [hc'.column, bne_iff_ne.mpr (Nat.ne_of_lt hn)]
                rfl
              rw [blockLines]
              simp only [hout, if_true]
        · show (l.reverse ++ (t.joint true blank ++ t.acc)).reverse ++
            List.replicate (e + 1) '\n' = _
          rw [unlines_cons, unlines_replicate, joint_true, joint_true, List.replicate_succ]
          simp
      · -- another line of text follows
        rw [setLines_replicate_append, setLines, List.isEmpty_eq_false_iff.mpr hm,
          if_neg Bool.false_ne_true, List.append_assoc] at hd ⊢
        have hlines' : ∀ m' ∈ m :: ms, ∀ ch ∈ m', isLineEnd ch = false := fun m' hm' =>
          hlines m' (List.mem_cons_of_mem _ (List.mem_append_right _ hm'))
        obtain ⟨c', hc', hpass⟩ := passEmptyLines_lines
          (follows_line column hm (hlines' m (List.mem_cons_self ..)))
          (show e < (List.replicate e '\n' ++ (List.replicate column ' ' ++ (m ++ '\n' ::
            setLines column ms (List.replicate n ' ' ++ r)))).length + 2 by
              rw [List.length_append, List.length_replicate]
              omega) hd 0
        rw [hpass, Nat.zero_add]
        obtain ⟨t', c'', hread, hc'', hbroken, htext, heq⟩ := ih hm hlines'
          (by rw [List.length_append, List.length_cons] at hfuel; omega) hc'.rest hc'.column
          { t.addLine true blank l with broken := true, empties := e }
        refine ⟨t', c'', hread, ⟨hc''.rest, hc''.column, Nat.lt_trans hc'.line hc''.line,
          hc''.margin⟩, hbroken, htext, ?_⟩
        rw [heq]
        show (l.reverse ++ (t.joint true blank ++ t.acc)).reverse ++
          (List.replicate (e + 1) '\n').reverse ++ unlines (m :: ms) = _
        rw [unlines_cons l, unlines_append, unlines_replicate, joint_true, joint_true,
          List.reverse_replicate, List.replicate_succ]
        simp

/-! ### The header and what follows it -/

/-- How the header says what becomes of the last line breaks. -/
def chompingMark : Chomping → List Char
  | .strip => ['-']
  | .clip => []
  | .keep => ['+']

/-- The text that a block with this header stands for, given that its last line ends. -/
def chomped : Chomping → List Char → List Char
  | .strip, body => body
  | .clip, body | .keep, body => body ++ ['\n']

theorem increment_none {x : List Char} (hc : c.rest = '\n' :: x) (start : Mark) :
    c.increment start = .ok (none, c.look 1) := by
  have hhead : (c.look 1).head = '\n' := head_of_rest (c := c.look 1) hc
  unfold increment
  simp only [hhead]
  rfl

theorem blockHeader_mark {chomping : Chomping} {x : List Char}
    (hc : c.rest = chompingMark chomping ++ '\n' :: x) (start : Mark) :
    ∃ c', Along (chompingMark chomping).length c c' ∧
      c.blockHeader start = .ok (⟨chomping, none⟩, c') := by
  have hpass := (along_look 1 c).trans (along_advance 1 (c.look 1))
  cases chomping with
  | clip =>
      have hhead : (c.look 1).head = '\n' := head_of_rest (c := c.look 1) hc
      refine ⟨(c.look 1).look 1, (along_look 1 c).trans (along_look 1 _), ?_⟩
      unfold blockHeader
      simp only [hhead]
      rw [show chomping? '\n' = none from rfl]
      show Except.bind ((c.look 1).increment start) _ = _
      rw [increment_none (c := c.look 1) hc]
      rfl
  | strip =>
      have hhead : (c.look 1).head = '-' := head_of_rest (c := c.look 1) hc
      have hrest : ((c.look 1).advance 1).rest = '\n' :: x := by rw [hpass.rest, hc]; rfl
      refine ⟨((c.look 1).advance 1).look 1, hpass.trans (along_look 1 _), ?_⟩
      unfold blockHeader
      simp only [hhead]
      rw [show chomping? '-' = some .strip from rfl]
      show Except.bind (((c.look 1).advance 1).increment start) _ = _
      rw [increment_none hrest]
      rfl
  | keep =>
      have hhead : (c.look 1).head = '+' := head_of_rest (c := c.look 1) hc
      have hrest : ((c.look 1).advance 1).rest = '\n' :: x := by rw [hpass.rest, hc]; rfl
      refine ⟨((c.look 1).advance 1).look 1, hpass.trans (along_look 1 _), ?_⟩
      unfold blockHeader
      simp only [hhead]
      rw [show chomping? '+' = some .keep from rfl]
      show Except.bind (((c.look 1).advance 1).increment start) _ = _
      rw [increment_none hrest]
      rfl

/-- Read a block after the lines before its text, which have been counted, where the indentation was
found. -/
def readBlock (chomping : Chomping) (indent : Int) (start : Mark) (empties widest : Nat)
    (c : Cursor) :
    Except Fault (Mark × String × Cursor) :=
  let column := max widest (indent + 1).toNat
  let column := if 0 < indent then max column 1 else column
  if isEnd c.head then
    .ok (start, String.ofList (blockWithoutLines chomping (c.mark.line == start.line) empties), c)
  else if c.column < column && indent < c.column then c.fault .blockIndentation
  else
    let (t, d) := c.blockLines true column (c.rest.length + 1) ⟨[], false, empties, false⟩
    .ok (c.mark, String.ofList (blockEnd chomping column t d).reverse, d)

theorem blockScalar_eq {chomping : Chomping} {x : List Char} (indent : Int)
    (hc : c.rest = '|' :: (chompingMark chomping ++ '\n' :: x)) (hx : x.head? ≠ some '\t') :
    ∃ d, Below x 0 c d ∧ c.blockScalar true indent =
      readBlock chomping indent c.mark (d.passToText (x.length + 1) 0 0).1
        (d.passToText (x.length + 1) 0 0).2.1 (d.passToText (x.length + 1) 0 0).2.2 := by
  have hopen := along_advance 1 c
  have hopened : (c.advance 1).rest = chompingMark chomping ++ '\n' :: x := by
    rw [hopen.rest, hc]
    rfl
  obtain ⟨c₁, halong, hheader⟩ := blockHeader_mark hopened c.mark
  obtain ⟨c₂, halong', -, hinline⟩ :=
    passInline_nothing (halong.rest_append hopened) rfl (by decide) true
  have hrest : c₂.rest = '\n' :: x := by rw [halong'.rest, halong.rest_append hopened]; rfl
  have hline : c₂.mark.line = c.mark.line := ((hopen.trans halong).trans halong').line
  have hbelow := (below_passBreak hrest).of_line_eq hline
  refine ⟨c₂.passBreak.look 1, hbelow.look 1, ?_⟩
  have hhead : c₂.head = '\n' := head_of_rest hrest
  have htab : ((c₂.passBreak.look 1).head == '\t') = false := by
    rw [(hbelow.look 1).head, beq_eq_false_iff_ne]
    cases x with
    | nil => decide
    | cons ch x => exact fun h => hx (congrArg some h)
  have hlength : (c₂.passBreak.look 1).rest.length + 1 = x.length + 1 := by
    rw [(hbelow.look 1).rest]
  have hend : isLineEnd '\n' = true := rfl
  have hbreak : isBreak '\n' = true := rfl
  unfold blockScalar readBlock
  simp only [bind, Except.bind, hheader, hinline, hhead, hend, hbreak, htab, hlength, Bool.not_true,
    Bool.false_eq_true, if_false, if_true]

/-- The lines of a block stand for the text `body`, to which the header adds the last break or not.
If it takes away breaks at the end, the text has none. -/
structure Sets (chomping : Chomping) (lines : List (List Char)) (body : List Char) : Prop where
  text : unlines lines = body ++ ['\n']
  one_line : ∀ l ∈ lines, ∀ ch ∈ l, isLineEnd ch = false
  no_space : lines.flatten.head? ≠ some ' '
  last : chomping = .keep ∨ body.getLast? ≠ some '\n'

section Block

variable {chomping : Chomping} {body : List Char} {indent : Int} {start : Mark} {n : Nat}

/-- A text that ends in so many breaks, of which the header may take away. -/
theorem breaks_eq_zero {x : List Char} {e : Nat}
    (hlast : chomping = .keep ∨ body.getLast? ≠ some '\n')
    (hbody : x ++ List.replicate e '\n' = body) : chomping = .keep ∨ e = 0 := by
  refine hlast.imp_right fun hlast => ?_
  cases e with
  | zero => rfl
  | succ e =>
      refine absurd ?_ hlast
      rw [← hbody, List.replicate_succ', ← List.append_assoc, List.getLast?_concat]

/-- A block without text at the end of the text. -/
theorem readBlock_end {e : Nat} (hkeep : chomping = .keep ∨ e = 0) (hend : isEnd c.head = true)
    (hline : start.line < c.mark.line) :
    readBlock chomping indent start (e + 1) n c =
      .ok (start, String.ofList (chomped chomping (List.replicate e '\n')), c) := by
  have hsame : (c.mark.line == start.line) = false := beq_eq_false_iff_ne.mpr (Nat.ne_of_gt hline)
  have htext : blockWithoutLines chomping false (e + 1) =
      chomped chomping (List.replicate e '\n') := by
    cases chomping with
    | keep =>
        show List.replicate (max 1 (e + 1)) '\n' = _
        rw [Nat.max_eq_right (Nat.le_add_left _ _), List.replicate_succ']
        rfl
    | strip =>
        rw [hkeep.resolve_left (by decide)]
        rfl
    | clip =>
        rw [hkeep.resolve_left (by decide)]
        rfl
  unfold readBlock
  simp only [hend, if_true, hsame, htext]

/-- A block without text in front of a line that is not indented more than the block around. -/
theorem readBlock_outside {e : Nat} (hkeep : chomping = .keep ∨ e = 0)
    (hclip : chomping = .clip → e ≠ 0) (hend : isEnd c.head = false) (hn : (n : Int) ≤ indent)
    (hcolumn : c.column = n) :
    readBlock chomping indent start (e + 1) n c =
      .ok (c.mark, String.ofList (chomped chomping (List.replicate e '\n')), c) := by
  have hinside : decide (indent < (n : Int)) = false := decide_eq_false (Int.not_lt.mpr hn)
  generalize hw : (if 0 < indent then max (max n (indent + 1).toNat) 1
    else max n (indent + 1).toNat) = w
  have hlt : n < w := by
    rw [← hw]
    split <;> omega
  have hout : (c.column != w || isEnd c.head) = true := by
    rw [hcolumn, bne_iff_ne.mpr (Nat.ne_of_lt hlt)]
    rfl
  have hlines : ∀ fuel t, c.blockLines true w fuel t = (t, c) := by
    intro fuel t
    cases fuel with
    | zero => rfl
    | succ fuel =>
        rw [blockLines]
        simp only [hout, if_true]
  have htext : (blockEnd chomping w ⟨[], false, e + 1, false⟩ c).reverse =
      chomped chomping (List.replicate e '\n') := by
    unfold blockEnd
    simp only [hend, Bool.false_and, Bool.false_eq_true, if_false, Nat.zero_add]
    cases chomping with
    | keep =>
        show (List.replicate (e + 1) '\n' ++ []).reverse = _
        rw [List.append_nil, List.reverse_replicate, List.replicate_succ']
        rfl
    | strip =>
        rw [hkeep.resolve_left (by decide)]
        rfl
    | clip => exact absurd (hkeep.resolve_left (by decide)) (hclip rfl)
  unfold readBlock
  simp only [hend, Bool.false_eq_true, if_false, hcolumn, hinside, Bool.and_false, hw, hlines,
    htext]

/-- A block without text, at the end of which another line comes or the text ends. -/
theorem readBlock_empty {e : Nat} (hlast : chomping = .keep ∨ body.getLast? ≠ some '\n')
    (hbody : List.replicate (e + 1) '\n' = body ++ ['\n'])
    (hclip : chomping = .clip → body = [] → r = [])
    (hn : (n : Int) ≤ indent ∨ n = 0 ∧ r = []) (hline : start.line < c.mark.line) (hc : c.rest = r)
    (hcolumn : c.column = n) :
    ∃ mark, readBlock chomping indent start (e + 1) n c =
      .ok (mark, String.ofList (chomped chomping body), c) := by
  rw [List.replicate_succ'] at hbody
  obtain ⟨hbody, -⟩ := List.append_inj' hbody rfl
  have hkeep := breaks_eq_zero (x := []) hlast hbody
  subst hbody
  cases hend : isEnd c.head with
  | true => exact ⟨start, readBlock_end hkeep hend hline⟩
  | false =>
      have hr : r ≠ [] := by
        rintro rfl
        rw [head_of_rest_nil hc] at hend
        cases hend
      refine ⟨c.mark, readBlock_outside hkeep ?_ hend (hn.resolve_right fun h => hr h.2) hcolumn⟩
      rintro hchomping rfl
      exact hr (hclip hchomping rfl)

/-- The end of a block after its last line of text. -/
theorem blockEnd_text {t : BlockText} {column : Nat}
    (hlast : chomping = .keep ∨ body.getLast? ≠ some '\n') (hbroken : t.broken = true)
    (hbody : t.acc.reverse ++ List.replicate (t.empties + 1) '\n' = body ++ ['\n'])
    (hcolumn : c.column < column) :
    (blockEnd chomping column t c).reverse = chomped chomping body := by
  have hclosing : (isEnd c.head && decide (max column 1 ≤ c.column)) = false := by
    have hnot : ¬max column 1 ≤ c.column := by omega
    rw [decide_eq_false hnot, Bool.and_false]
  have hkeep : chomping = .keep ∨ t.empties = 0 := by
    rw [List.replicate_succ', ← List.append_assoc] at hbody
    exact breaks_eq_zero hlast (List.append_inj' hbody rfl).1
  unfold blockEnd
  simp only [hclosing, hbroken, if_true, Bool.false_eq_true, if_false, Nat.add_zero]
  cases chomping with
  | keep =>
      show (List.replicate (1 + t.empties) '\n' ++ t.acc).reverse = body ++ ['\n']
      rw [← hbody, Nat.add_comm 1, List.reverse_append, List.reverse_replicate]
  | strip =>
      rw [hkeep.resolve_left (by decide)] at hbody
      exact (List.append_inj' hbody rfl).1
  | clip =>
      rw [hkeep.resolve_left (by decide)] at hbody
      show (List.replicate 1 '\n' ++ t.acc).reverse = body ++ ['\n']
      rw [← hbody, List.reverse_append, List.reverse_replicate]

/-- A block with text. -/
theorem readBlock_text {column e : Nat} {l : List Char} {ls : List (List Char)} (hl : l ≠ [])
    (hlines : ∀ m ∈ l :: ls, ∀ ch ∈ m, isLineEnd ch = false)
    (hlast : chomping = .keep ∨ body.getLast? ≠ some '\n')
    (hbody : List.replicate e '\n' ++ unlines (l :: ls) = body ++ ['\n'])
    (hr : Starts r) (hn : n < column) (hindent : indent < column)
    (hc : c.rest = l ++ '\n' :: setLines column ls (List.replicate n ' ' ++ r))
    (hcolumn : c.column = column) :
    ∃ mark c', Below r n c c' ∧ readBlock chomping indent start e column c =
      .ok (mark, String.ofList (chomped chomping body), c') := by
  have hend : isEnd c.head = false := by
    obtain ⟨ch, l', rfl⟩ := List.exists_cons_of_ne_nil hl
    have hch := hlines _ (List.mem_cons_self ..) ch (List.mem_cons_self ..)
    rw [isLineEnd, Bool.or_eq_false_iff] at hch
    rw [head_of_rest hc]
    exact hch.2
  have hw : (if 0 < indent then max (max column (indent + 1).toNat) 1
      else max column (indent + 1).toNat) = column := by
    split <;> omega
  have hfuel : ls.length < c.rest.length + 1 := by
    have hlength := length_setLines column ls (List.replicate n ' ' ++ r)
    rw [hc, List.length_append, List.length_cons]
    omega
  obtain ⟨t, c', hread, hbelow, hbroken, -, htext⟩ :=
    blockLines_lines hn hr hl hlines hfuel hc hcolumn ⟨[], false, e, false⟩
  refine ⟨c.mark, c', hbelow, ?_⟩
  have hbody' : t.acc.reverse ++ List.replicate (t.empties + 1) '\n' = body ++ ['\n'] := by
    rw [htext, ← hbody, joint_true, List.reverse_replicate]
    rfl
  have hresult := blockEnd_text hlast hbroken hbody' (hbelow.column.trans_lt hn)
  unfold readBlock
  simp only [hend, Bool.false_eq_true, if_false, hw, hcolumn, Nat.lt_irrefl, decide_false,
    Bool.false_and, hread, hresult]

/-- A block scalar is read back from the lines it was set in.  The header cannot say that the text
is a line break and nothing else, unless the block is the last thing there is. -/
theorem blockScalar_lines {lines : List (List Char)} {column : Nat}
    (hsets : Sets chomping lines body) (hclip : chomping = .clip → body = [] → r = [])
    (hr : Starts r) (hn : (n : Int) ≤ indent ∨ n = 0 ∧ r = []) (hindent : -1 ≤ indent)
    (hcolumn : indent + 1 < column)
    (hc : c.rest = '|' :: (chompingMark chomping ++
      '\n' :: setLines column lines (List.replicate n ' ' ++ r))) :
    ∃ mark c', Below r n c c' ∧ c.blockScalar true indent =
      .ok (mark, String.ofList (chomped chomping body), c') := by
  obtain ⟨htext, hlines, hspace, hlast⟩ := hsets
  rcases empty_or_text lines with ⟨e, rfl⟩ | ⟨e, l, ls, rfl, hl⟩
  · rw [unlines_replicate] at htext
    obtain ⟨e, rfl⟩ : ∃ k, e = k + 1 := Nat.exists_eq_add_one.mpr (by
      cases e with
      | zero => simp at htext
      | succ e => exact Nat.succ_pos e)
    rw [setLines_replicate] at hc
    obtain ⟨d, hd, heq⟩ := blockScalar_eq indent hc (by simp [List.replicate_succ])
    obtain ⟨c', hc', hpass⟩ := passToText_lines hr.head?_ne hr.2
      (show e + 1 < (List.replicate (e + 1) '\n' ++ (List.replicate n ' ' ++ r)).length + 1 by
        rw [List.length_append, List.length_replicate]
        omega) hd 0
    rw [heq, hpass, Nat.zero_add]
    obtain ⟨mark, hblock⟩ := readBlock_empty hlast htext hclip hn hc'.line hc'.rest hc'.column
    exact ⟨mark, c', hc', hblock⟩
  · rw [setLines_replicate_append, setLines, List.isEmpty_eq_false_iff.mpr hl,
      if_neg Bool.false_ne_true, List.append_assoc] at hc
    have hlines' : ∀ m ∈ l :: ls, ∀ ch ∈ m, isLineEnd ch = false :=
      fun m hm => hlines m (List.mem_append_right _ hm)
    have hfirst :
        (l ++ '\n' :: setLines column ls (List.replicate n ' ' ++ r)).head? ≠ some ' ' := by
      obtain ⟨ch, l', rfl⟩ := List.exists_cons_of_ne_nil hl
      have hflat : (List.replicate e [] ++ (ch :: l') :: ls).flatten.head? = some ch := by simp
      rw [hflat] at hspace
      exact hspace
    have hfollows := follows_line column
      (x := '\n' :: setLines column ls (List.replicate n ' ' ++ r)) hl
      (hlines' l (List.mem_cons_self ..))
    obtain ⟨d, hd, heq⟩ := blockScalar_eq indent hc (by
      cases e with
      | zero =>
          obtain ⟨k, rfl⟩ : ∃ k, column = k + 1 := Nat.exists_eq_add_one.mpr (by omega)
          simp [List.replicate_succ]
      | succ e => simp [List.replicate_succ])
    obtain ⟨c', hc', hpass⟩ := passToText_lines hfirst hfollows.not_break
      (show e < (List.replicate e '\n' ++ (List.replicate column ' ' ++ (l ++ '\n' ::
        setLines column ls (List.replicate n ' ' ++ r)))).length + 1 by
          rw [List.length_append, List.length_replicate]
          omega) hd 0
    rw [heq, hpass, Nat.zero_add]
    obtain ⟨mark, c'', hc'', hblock⟩ := readBlock_text hl hlines' hlast
      (by rw [← htext, unlines_append, unlines_replicate]) hr
      (show n < column by omega) (show indent < column by omega) hc'.rest hc'.column
    exact ⟨mark, c'', ⟨hc''.rest, hc''.column, Nat.lt_trans hc'.line hc''.line, hc''.margin⟩,
      hblock⟩

end Block

end Cursor

end YamlDelta.Markup
