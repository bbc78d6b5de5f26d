/-
Plain scalars are read as they stand.

A plain scalar on one line is words with blanks between them, and the only thing that could
end it too early is one of its own words: one that looks like a comment, or like a key with
its colon.  Without those, all of it is read: up to the colon if it is a key
(`plainScalar_key`), and up to the text on the next line otherwise (`plainScalar_line`), as
long as that line is not indented further than the block around.
-/
import YamlDelta.Markup.Token.Plain
import YamlDelta.Proofs.Markup.Motion

namespace YamlDelta.Markup.Cursor

variable {c c' : Cursor}

/-! ### Words -/

/-- Characters without white space, the last of which is no colon. -/
structure IsWord (w : List Char) : Prop where
  ne_nil : w ≠ []
  no_gap : ∀ ch ∈ w, isGap ch = false
  no_colon : w.getLast? ≠ some ':'

/-- Words with blanks between them, of which none but the first may look like a comment. -/
inductive Words : List Char → Prop
  | word {w : List Char} (h : IsWord w) : Words w
  | cons {w b t : List Char} (hw : IsWord w) (hb : b ≠ []) (hblank : ∀ ch ∈ b, isBlank ch = true)
      (ht : Words t) (hcomment : t.head? ≠ some '#') : Words (w ++ (b ++ t))

theorem IsWord.exists_cons {w : List Char} (h : IsWord w) :
    ∃ ch w', w = ch :: w' ∧ isGap ch = false := by
  obtain ⟨ch, w', rfl⟩ := List.exists_cons_of_ne_nil h.ne_nil
  exact ⟨ch, w', rfl, h.no_gap ch (List.mem_cons_self ..)⟩

theorem Words.exists_cons {t : List Char} (h : Words t) :
    ∃ ch t', t = ch :: t' ∧ isGap ch = false := by
  cases h with
  | word hw => exact hw.exists_cons
  | cons hw hb hblank ht hcomment =>
      obtain ⟨ch, w', rfl, hch⟩ := hw.exists_cons
      exact ⟨ch, _, rfl, hch⟩

/-- A word is read up to where no further character belongs to it. -/
theorem plainWord_append {w r : List Char} (hw : IsWord w) (hr : plainWord false r = []) :
    plainWord false (w ++ r) = w := by
  obtain ⟨-, hgap, hcolon⟩ := hw
  induction w with
  | nil => exact hr
  | cons ch w ih =>
      rw [List.forall_mem_cons] at hgap
      have hplain : isPlain false ch ((w ++ r).headD '\x00') = true := by
        cases w with
        | nil =>
            have hne : ch ≠ ':' := fun h => hcolon (by rw [h]; rfl)
            simp [isPlain, hgap.1, hne]
        | cons d w =>
            have hd := hgap.2 d (List.mem_cons_self ..)
            simp [isPlain, hgap.1, endsKey, hd]
      rw [List.cons_append, plainWord, hplain, if_pos rfl]
      cases w with
      | nil => rw [List.nil_append, hr]
      | cons d w => rw [ih hgap.2 (by rwa [List.getLast?_cons_cons] at hcolon)]

theorem plainWord_of_gap {ch : Char} {r : List Char} (h : isGap ch = true) :
    plainWord false (ch :: r) = [] := by
  simp [plainWord, isPlain, h]

/-- A document can only begin or end at the start of a line. -/
theorem not_isMarker (h : c.column ≠ 0) : c.isMarker = false := by
  simp [isMarker, isMarkerOf, h]

/-! ### Plain scalars -/

/-- What follows a word: the scalar ends, or there is white space and perhaps another word. -/
def afterWord (ctx : PlainContext) (fuel : Nat) (acc : List Char) (s : Spacing) (c : Cursor) :
    Except Fault (List Char × Cursor) :=
  if isBlank c.head || isBreak c.head then do
    let (s, c) ← c.plainSpacing ctx (c.rest.length + 1) s
    if !ctx.inFlow && (c.column : Int) < ctx.margin then .ok (acc, c)
    else plainBody ctx fuel acc s c
  else .ok (acc, c)

theorem plainBody_word {ctx : PlainContext} {w r : List Char} (hflow : ctx.inFlow = false)
    (hw : IsWord w)
    (hr : plainWord false r = []) (hcomment : w.head? ≠ some '#') (hc : c.rest = w ++ r)
    (hmarker : c.isMarker = false) (fuel : Nat) (acc : List Char) (s : Spacing) :
    ∃ c', Along w.length c c' ∧ c'.atMargin = false ∧
      plainBody ctx (fuel + 1) acc s c =
        afterWord ctx fuel (w.reverse ++ ((if c.atMargin then s.folded else s.blanks) ++ acc))
          .none c' := by
  have hword : plainWord false (c.look 4).rest = w := by
    show plainWord false c.rest = w
    rw [hc, plainWord_append hw hr]
  obtain ⟨ch, w', rfl, hch⟩ := hw.exists_cons
  have hhead : (c.look 4).head = ch := head_of_rest (c := c.look 4) hc
  have hne : ch ≠ '#' := fun h => hcomment (by rw [h]; rfl)
  refine ⟨((c.look 4).advance (ch :: w').length).look 2, ?_, ?_, ?_⟩
  · simpa using ((along_look 4 c).trans (along_advance (ch :: w').length _)).trans (along_look 2 _)
  · simp [look, advance]
  · have hmarker' : (c.look 4).isMarker = false := hmarker
    rw [plainBody, afterWord]
    simp only [hmarker', hhead, hword, hflow, Bool.false_or, Bool.false_and, Bool.false_eq_true,
      if_false, beq_iff_eq, hne, List.isEmpty_cons]
    rfl

/-- Blanks between two words are kept. -/
theorem plainSpacing_blanks (ctx : PlainContext) {b r : List Char}
    (hb : ∀ ch ∈ b, isBlank ch = true) (hr : Starts r)
    {fuel : Nat} (hfuel : b.length < fuel) (hc : c.rest = b ++ r) (hmargin : c.atMargin = false)
    (s : Spacing) :
    ∃ c', Along b.length c c' ∧ c'.atMargin = false ∧
      plainSpacing ctx fuel s c = .ok ({ s with blanks := b.reverse ++ s.blanks }, c') := by
  induction b generalizing c s fuel with
  | nil =>
      obtain ⟨fuel, rfl⟩ := Nat.exists_eq_succ_of_ne_zero (Nat.ne_of_gt hfuel)
      have hhead : (c.look 1).head = r.headD '\x00' := by
        rw [head_eq_headD]
        exact congrArg (·.headD '\x00') hc
      refine ⟨c.look 1, along_look 1 c, hmargin, ?_⟩
      rw [plainSpacing]
      simp only [hhead, hr.1, hr.2, Bool.false_eq_true, if_false]
      rfl
  | cons ch b ih =>
      obtain ⟨fuel, rfl⟩ := Nat.exists_eq_succ_of_ne_zero (Nat.ne_zero_of_lt hfuel)
      rw [List.forall_mem_cons] at hb
      have hhead : (c.look 1).head = ch := head_of_rest (c := c.look 1) hc
      have hrest : ((c.look 1).advanceBlank 1).rest = b ++ r := by
        show c.rest.drop 1 = _
        rw [hc]
        rfl
      obtain ⟨c', halong, hmargin', hspacing⟩ :=
        ih hb.2 (Nat.lt_of_succ_lt_succ hfuel) hrest hmargin
        { s with blanks := ch :: s.blanks }
      refine ⟨c', ?_, hmargin', ?_⟩
      · have hstep := ((along_look 1 c).trans (along_advanceBlank 1 _)).trans halong
        rwa [Nat.zero_add, Nat.add_comm] at hstep
      · have hmargin'' : (c.look 1).atMargin = false := hmargin
        rw [plainSpacing]
        simp only [hhead, hb.1, if_true, hmargin'', Bool.not_false]
        rw [hspacing, List.reverse_cons, List.append_assoc]
        rfl

/-- Words are read up to where no further character belongs to them. -/
theorem plainBody_words (ctx : PlainContext) {t r : List Char} (hflow : ctx.inFlow = false)
    (ht : Words t)
    (hr : plainWord false r = []) (hcomment : t.head? ≠ some '#') (hc : c.rest = t ++ r)
    (hmarker : c.isMarker = false) (hcolumn : ctx.margin ≤ c.column + 1) {fuel : Nat}
    (hfuel : t.length ≤ fuel) (acc : List Char) (s : Spacing) :
    ∃ c' fuel', Along t.length c c' ∧ c'.atMargin = false ∧ fuel ≤ fuel' + t.length ∧
      plainBody ctx fuel acc s c =
        afterWord ctx fuel' (t.reverse ++ ((if c.atMargin then s.folded else s.blanks) ++ acc))
          .none c' := by
  induction ht generalizing c acc s fuel with
  | @word w hw =>
      obtain ⟨fuel, rfl⟩ : ∃ k, fuel = k + 1 :=
        Nat.exists_eq_add_one.mpr (Nat.lt_of_lt_of_le (List.length_pos_of_ne_nil hw.ne_nil) hfuel)
      obtain ⟨c', halong, hmargin, hbody⟩ :=
        plainBody_word hflow hw hr hcomment hc hmarker fuel acc s
      refine ⟨c', fuel, halong, hmargin, ?_, hbody⟩
      have := List.length_pos_of_ne_nil hw.ne_nil
      omega
  | @cons w b t hw hb hblank ht hcomment' ih =>
      have hwlen := List.length_pos_of_ne_nil hw.ne_nil
      have hblen := List.length_pos_of_ne_nil hb
      rw [List.length_append, List.length_append] at hfuel ⊢
      obtain ⟨fuel, rfl⟩ : ∃ k, fuel = k + 1 := Nat.exists_eq_add_one.mpr (by omega)
      rw [List.append_assoc, List.append_assoc] at hc
      obtain ⟨blank, b', rfl⟩ := List.exists_cons_of_ne_nil hb
      have hblank' := hblank blank (List.mem_cons_self ..)
      have hwhead : w.head? ≠ some '#' := by
        obtain ⟨ch, w', rfl, -⟩ := hw.exists_cons
        exact hcomment
      -- the first word ends at the blanks
      obtain ⟨c₁, halong, hmargin, hbody⟩ :=
        plainBody_word hflow hw (plainWord_of_gap (by simp [isGap, hblank'])) hwhead hc hmarker fuel
          acc s
      have hc₁ := halong.rest_append hc
      have hhead : isBlank c₁.head = true := by rw [head_of_rest hc₁]; exact hblank'
      -- the blanks are kept, and do not leave the line
      have hstarts : Starts (t ++ r) := by
        obtain ⟨ch, t', rfl, hch⟩ := ht.exists_cons
        exact starts_cons hch
      obtain ⟨c₂, halong', hmargin', hspacing⟩ := plainSpacing_blanks ctx hblank hstarts
        (show _ < c₁.rest.length + 1 by rw [hc₁, List.length_append]; omega) hc₁ hmargin .none
      have hc₂ := halong'.rest_append hc₁
      have hcol : c₂.column = c.column + w.length + (blank :: b').length := by
        rw [halong'.column, halong.column]
      -- the other words follow
      obtain ⟨c₃, fuel', halong'', hmargin'', hfuel', hrest⟩ := ih hcomment' hc₂
        (not_isMarker (by omega)) (by omega) (show t.length ≤ fuel by omega)
        (w.reverse ++ ((if c.atMargin then s.folded else s.blanks) ++ acc))
        { Spacing.none with blanks := (blank :: b').reverse ++ Spacing.none.blanks }
      refine ⟨c₃, fuel', ?_, hmargin'', by omega, ?_⟩
      · rw [← Nat.add_assoc]
        exact (halong.trans halong').trans halong''
      · rw [hbody, afterWord, hhead, Bool.true_or, if_pos rfl, hspacing]
        have hin : (!ctx.inFlow && decide ((c₂.column : Int) < ctx.margin)) = false := by
          rw [hflow, Bool.not_false, Bool.true_and, decide_eq_false_iff_not]
          omega
        show (if (!ctx.inFlow && decide ((c₂.column : Int) < ctx.margin)) = true then _ else _) = _
        rw [hin, if_neg Bool.false_ne_true, hrest, hmargin', if_neg Bool.false_ne_true]
        simp [Spacing.none]

/-- At the beginning of a line blanks are skipped. -/
theorem plainSpacing_margin (ctx : PlainContext) {c₀ : Cursor} {r : List Char} {d n : Nat}
    (hr : Starts r) {fuel : Nat}
    (hfuel : n < fuel) (hc : Below (List.replicate n ' ' ++ r) d c₀ c) (s : Spacing) :
    ∃ c', Below r (d + n) c₀ c' ∧ plainSpacing ctx fuel s c = .ok (s, c') := by
  induction n generalizing c d fuel with
  | zero =>
      obtain ⟨fuel, rfl⟩ := Nat.exists_eq_succ_of_ne_zero (Nat.ne_of_gt hfuel)
      have hhead := (hc.look 1).head
      rw [List.replicate_zero, List.nil_append] at hhead
      refine ⟨c.look 1, hc.look 1, ?_⟩
      rw [plainSpacing]
      simp only [hhead, hr.1, hr.2, Bool.false_eq_true, if_false]
  | succ n ih =>
      obtain ⟨fuel, rfl⟩ := Nat.exists_eq_succ_of_ne_zero (Nat.ne_zero_of_lt hfuel)
      have hhead : (c.look 1).head = ' ' := (hc.look 1).head
      have hstep : Below (List.replicate n ' ' ++ r) (d + 1) c₀ ((c.look 1).advanceBlank 1) :=
        (hc.look 1).advanceBlank (n := 1)
      obtain ⟨c', hc', hspacing⟩ := ih (Nat.lt_of_succ_lt_succ hfuel) hstep
      refine ⟨c', by rwa [Nat.add_assoc, Nat.add_comm 1 n] at hc', ?_⟩
      rw [plainSpacing]
      have hblank : isBlank ' ' = true := rfl
      have htab : ((' ' == '\t') && decide (((c.look 1).column : Int) < ctx.margin)) = false := rfl
      simp only [hhead, hblank, if_true, (hc.look 1).margin, Bool.not_true, Bool.false_eq_true,
        if_false, htab]
      exact hspacing

/-- The white space between a word and the next line of text is a line break. -/
theorem plainSpacing_line (ctx : PlainContext) {r : List Char} {d : Nat} (hr : Starts r)
    {fuel : Nat}
    (hfuel : d + 1 < fuel) (hc : c.rest = '\n' :: (List.replicate d ' ' ++ r))
    (hmargin : c.atMargin = false) :
    ∃ c', Below r d c c' ∧ plainSpacing ctx fuel .none c = .ok (⟨[], true, 0⟩, c') := by
  obtain ⟨fuel, rfl⟩ := Nat.exists_eq_succ_of_ne_zero (Nat.ne_zero_of_lt hfuel)
  have hhead : (c.look 1).head = '\n' := head_of_rest (c := c.look 1) hc
  have hbelow : Below (List.replicate d ' ' ++ r) 0 c (c.look 1).passBreak :=
    (below_passBreak (c := c.look 1) hc).of_line_eq rfl
  obtain ⟨c', hc', hspacing⟩ :=
    plainSpacing_margin ctx hr (Nat.lt_of_succ_lt_succ hfuel) hbelow ⟨[], true, 0⟩
  rw [Nat.zero_add] at hc'
  refine ⟨c', hc', ?_⟩
  rw [plainSpacing]
  have hmargin' : (c.look 1).atMargin = false := hmargin
  have hblank : isBlank '\n' = false := rfl
  have hbreak : isBreak '\n' = true := rfl
  simp only [hhead, hblank, hbreak, Bool.false_eq_true, if_false, if_true, hmargin']
  exact hspacing

theorem plainBody_end {ctx : PlainContext} (hc : c.rest = []) (hflow : ctx.inFlow = false)
    (fuel : Nat)
    (acc : List Char) (s : Spacing) : plainBody ctx (fuel + 1) acc s c = .ok (acc, c.look 4) := by
  have hpeek : ∀ i, (c.look 4).peek i = '\x00' := by
    intro i
    show c.rest.getD i '\x00' = _
    rw [hc]
    rfl
  have hmarker : (c.look 4).isMarker = false := by simp [isMarker, isMarkerOf, hpeek]
  have hhead : (c.look 4).head = '\x00' := hpeek 0
  have hword : plainWord false (c.look 4).rest = [] := by
    show plainWord false c.rest = []
    rw [hc]
    rfl
  rw [plainBody]
  simp only [hmarker, hhead, hflow, hword, List.isEmpty_nil, if_true]
  rfl

theorem white_none (atMargin : Bool) :
    (if atMargin then Spacing.none.folded else Spacing.none.blanks) = [] := by
  cases atMargin <;> rfl

variable {t r : List Char} {indent : Int}

/-- The words of a plain scalar make its text. -/
theorem plainScalar_of_body
    (h : plainBody ⟨false, indent + 1, c.mark⟩ (c.rest.length + 1) [] .none c =
      .ok (t.reverse, c')) : c.plainScalar false indent = .ok (String.ofList t, c') := by
  unfold plainScalar
  simp only [Bool.false_and, Bool.false_eq_true, if_false]
  show Except.bind (plainBody _ _ _ _ _) _ = _
  rw [h]
  show Except.ok (String.ofList t.reverse.reverse, c') = _
  rw [List.reverse_reverse]

/-- A plain key is read up to its colon. -/
theorem plainScalar_key (ht : Words t) (hcomment : t.head? ≠ some '#')
    (hc : c.rest = t ++ ':' :: r) (hr : isGap (r.headD '\x00') = true)
    (hmarker : c.isMarker = false) (hindent : indent ≤ c.column) :
    ∃ c', Along t.length c c' ∧ c'.atMargin = false ∧
      c.plainScalar false indent = .ok (String.ofList t, c') := by
  have hword : plainWord false (':' :: r) = [] := by
    rw [plainWord, isPlain, endsKey, hr]
    rfl
  obtain ⟨c', fuel, halong, hmargin, -, hbody⟩ := plainBody_words
    ⟨false, indent + 1, c.mark⟩ rfl ht hword hcomment hc hmarker (Int.add_le_add_right hindent 1)
    (show _ ≤ c.rest.length + 1 by rw [hc, List.length_append]; omega) [] .none
  have hhead : c'.head = ':' := head_of_rest (halong.rest_append hc)
  have hafter : afterWord ⟨false, indent + 1, c.mark⟩ fuel t.reverse .none c' =
      .ok (t.reverse, c') := by
    rw [afterWord, hhead]
    rfl
  rw [white_none, List.append_nil, List.append_nil, hafter] at hbody
  exact ⟨c', halong, hmargin, plainScalar_of_body hbody⟩

/-- A plain scalar is read up to the end of the text. -/
theorem plainScalar_last (ht : Words t) (hcomment : t.head? ≠ some '#') (hc : c.rest = t)
    (hmarker : c.isMarker = false) (hindent : indent ≤ c.column) :
    ∃ c', Along t.length c c' ∧ c'.atMargin = false ∧
      c.plainScalar false indent = .ok (String.ofList t, c') := by
  obtain ⟨c', fuel, halong, hmargin, -, hbody⟩ := plainBody_words (r := [])
    ⟨false, indent + 1, c.mark⟩ rfl ht rfl hcomment (by rw [hc, List.append_nil]) hmarker
    (Int.add_le_add_right hindent 1) (show t.length ≤ c.rest.length + 1 by rw [hc]; omega) [] .none
  have hhead : c'.head = '\x00' := head_of_rest_nil (by rw [halong.rest, hc, List.drop_length])
  have hafter : afterWord ⟨false, indent + 1, c.mark⟩ fuel t.reverse .none c' =
      .ok (t.reverse, c') := by
    rw [afterWord, hhead]
    rfl
  rw [white_none, List.append_nil, List.append_nil, hafter] at hbody
  exact ⟨c', halong, hmargin, plainScalar_of_body hbody⟩

/-- A plain scalar that ends with its line is read up to the text after it, if that is not indented
further than the block. -/
theorem plainScalar_line {d : Nat} (ht : Words t) (hcomment : t.head? ≠ some '#')
    (hc : c.rest = t ++ '\n' :: (List.replicate d ' ' ++ r)) (hr : Starts r)
    (hmarker : c.isMarker = false) (hindent : indent ≤ c.column)
    (hd : (d : Int) ≤ indent ∨ d = 0 ∧ r = []) :
    ∃ c', Below r d c c' ∧ c.plainScalar false indent = .ok (String.ofList t, c') := by
  have hword : plainWord false ('\n' :: (List.replicate d ' ' ++ r)) = [] := plainWord_of_gap rfl
  obtain ⟨c₁, fuel, halong, hmargin, hfuel, hbody⟩ := plainBody_words
    ⟨false, indent + 1, c.mark⟩ rfl ht hword hcomment hc hmarker (Int.add_le_add_right hindent 1)
    (show _ ≤ c.rest.length + 1 by rw [hc, List.length_append]; omega) [] .none
  have hc₁ := halong.rest_append hc
  have hhead : c₁.head = '\n' := head_of_rest hc₁
  obtain ⟨c₂, hbelow, hspacing⟩ := plainSpacing_line ⟨false, indent + 1, c.mark⟩ hr
    (show d + 1 < c₁.rest.length + 1 by
      rw [hc₁, List.length_cons, List.length_append, List.length_replicate]
      omega) hc₁ hmargin
  have hbelow' : Below r d c c₂ := hbelow.of_line_eq halong.line
  rw [white_none, List.append_nil, List.append_nil] at hbody
  -- the next line belongs to another node, or the text has ended
  have hend : ∃ c', Below r d c c' ∧
      afterWord ⟨false, indent + 1, c.mark⟩ fuel t.reverse .none c₁ = .ok (t.reverse, c') := by
    rw [afterWord, hhead]
    show ∃ c', _ ∧ Except.bind (plainSpacing _ _ _ _) _ = _
    rw [hspacing]
    show ∃ c', _ ∧ (if decide ((c₂.column : Int) < indent + 1) = true then Except.ok (t.reverse, c₂)
      else plainBody _ fuel t.reverse _ c₂) = _
    by_cases hout : (c₂.column : Int) < indent + 1
    · exact ⟨c₂, hbelow', if_pos (decide_eq_true hout)⟩
    · rcases hd with hd | ⟨-, rfl⟩
      · rw [hbelow'.column] at hout
        omega
      · obtain ⟨fuel, rfl⟩ : ∃ k, fuel = k + 1 := by
          rw [hc, List.length_append] at hfuel
          exact Nat.exists_eq_add_one.mpr (by omega)
        refine ⟨c₂.look 4, hbelow'.look 4, ?_⟩
        rw [if_neg (by simpa using hout), plainBody_end hbelow'.rest rfl]
  obtain ⟨c', hc', hafter⟩ := hend
  rw [hafter] at hbody
  exact ⟨c', hc', plainScalar_of_body hbody⟩

end YamlDelta.Markup.Cursor
