/-
How far scalars reach.

A scalar is passed like everything else (`Cursor.Passes`), except for one thing: the rest of a line
in a block scalar moves the index by its length in bytes.  These bytes are those of characters of
its text, so the index counts characters there as well as long as the text has none of several
bytes (`passes_blockScalar`).

A scalar in quotes ends with a quote, which takes an argument: its words and its white space are
read in turn until the quote comes, and every turn passes some characters, so the reading does not
stop for any other reason.  And the text of a plain scalar begins with the character where it begins
(`head?_plainScalar`), so it is never empty.

No text is longer than what it is read from.  An escape is longer than its character, and what line
breaks become has been paid with a break; the indicator of a block scalar pays for the break that
its last line may lack.
-/
import YamlDelta.Markup.Token.Block
import YamlDelta.Markup.Token.Quoted
import YamlDelta.Proofs.Markup.Literal
import YamlDelta.Proofs.Markup.Passing
import YamlDelta.Proofs.Markup.Plain

namespace YamlDelta.Markup

/-! ### White space -/

namespace Spacing

variable {s : Spacing}

/-- So long is white space at most when it has been folded, or has not. -/
def width (s : Spacing) : Nat :=
  s.blanks.length + s.extra + s.broken.toNat

theorem length_white_le (s : Spacing) (fold : Bool) :
    (if fold then s.folded else s.blanks).length ≤ s.width := by
  have hfolded : s.folded.length ≤ s.extra + s.broken.toNat := by
    unfold folded
    split
    · rename_i h
      rw [Bool.and_eq_true] at h
      rw [h.1]
      exact Nat.le_add_left 1 _
    · rw [List.length_replicate]
      exact Nat.le_add_right _ _
  unfold width
  split <;> omega

theorem width_addBreak_le (fresh : Bool) (s : Spacing) :
    (s.addBreak fresh).width ≤ s.width + 1 := by
  unfold addBreak width
  split
  · show s.blanks.length + (s.extra + 1) + s.broken.toNat ≤ _
    omega
  · show 0 + s.extra + 1 ≤ _
    omega

end Spacing

namespace Cursor

variable {c c' d : Cursor} {start : Mark} {acc acc' : List Char} {fuel : Nat}

/-! ### Quoted scalars -/

theorem exists_of_escape {ch : Char} (h : c.escape start = .ok (ch, c')) :
    1 < c.rest.length ∧ Passes (c.advance 2) c' := by
  have htwo : Escape.ofChar? (c.peek 1) ≠ none → 1 < c.rest.length := fun hne =>
    lt_length_of_peek fun hend => hne (by rw [hend]; rfl)
  unfold escape at h
  split at h
  · cases h
  · rename_i hescape
    cases h
    exact ⟨htwo (by rw [hescape]; exact Option.some_ne_none _), passes_refl _⟩
  · rename_i n hescape
    dsimp only at h
    split at h
    · cases h
    · rename_i hdigits
      rw [Bool.not_eq_true', Bool.not_eq_false, List.all_map, List.all_eq_true] at hdigits
      split at h
      · cases h
      · cases h
        refine ⟨htwo (by rw [hescape]; exact Option.some_ne_none _),
          (passes_look n _).trans (passes_advance ?_)⟩
        cases n with
        | zero => exact Nat.zero_le _
        | succ n =>
            exact lt_length_of_peek
              (ne_end_of_class (hdigits n (List.mem_range.mpr (Nat.lt_succ_self n))))

theorem passes_escape {ch : Char} (h : c.escape start = .ok (ch, c')) : Passes c c' :=
  (passes_advance (exists_of_escape h).1).trans (exists_of_escape h).2

theorem length_escape_lt {ch : Char} (h : c.escape start = .ok (ch, c')) :
    c'.rest.length < c.rest.length := by
  obtain ⟨hlength, hpasses⟩ := exists_of_escape h
  have hle : c'.rest.length ≤ (c.rest.drop 2).length := hpasses.length_le
  rw [List.length_drop] at hle
  omega

/-- What ends a scalar in quotes. -/
def quote (single : Bool) : Char :=
  if single then '\'' else '"'

theorem quote_ne_end (single : Bool) : quote single ≠ '\x00' := by
  cases single <;> decide

/-- What a word has passed, and what comes after it. -/
structure PassesWord (single escaped : Bool) (acc acc' : List Char) (c c' : Cursor) : Prop where
  passes : Passes c c'
  room : acc'.length + c'.rest.length ≤ acc.length + c.rest.length
  ended : escaped = false → isGap c'.head = true ∨ c'.head = quote single
  escaped : escaped = true → c'.rest.length < c.rest.length

/-- A word goes on after one more character of it. -/
theorem PassesWord.after {single escaped : Bool} {ch : Char}
    (h : PassesWord single escaped (ch :: acc) acc' d c') (hd : Passes c d)
    (hlt : d.rest.length < c.rest.length) : PassesWord single escaped acc acc' c c' := by
  have hroom := h.room
  rw [List.length_cons] at hroom
  exact ⟨hd.trans h.passes, by omega, h.ended,
    fun he => Nat.lt_of_lt_of_le (h.escaped he) hd.length_le⟩

theorem passesWord_here {single : Bool} (h : isGap c.head = true ∨ c.head = quote single) :
    PassesWord single false acc acc c (c.look 2) :=
  ⟨passes_look 2 c, Nat.le_refl _, fun _ => h, fun he => absurd he Bool.false_ne_true⟩

theorem passes_quotedWord {single escaped : Bool} (hfuel : c.rest.length < fuel)
    (h : quotedWord single start fuel acc c = .ok (acc', escaped, c')) :
    PassesWord single escaped acc acc' c c' := by
  induction fuel generalizing acc c with
  | zero => exact absurd hfuel (Nat.not_lt_zero _)
  | succ fuel ih =>
      -- a character has been read, and the word goes on
      have hnext : ∀ {ch d}, Passes c d → d.rest.length < c.rest.length →
          quotedWord single start fuel (ch :: acc) d = .ok (acc', escaped, c') →
            PassesWord single escaped acc acc' c c' := fun hd hlt h =>
        (ih (by omega) h).after hd hlt
      rw [quotedWord] at h
      dsimp only at h
      split at h
      · rename_i hgap
        cases h
        exact passesWord_here (.inl hgap)
      · rename_i hgap
        have hhead : (c.look 2).head ≠ '\x00' := by
          intro hend
          rw [hend] at hgap
          exact hgap rfl
        have hone : Passes c ((c.look 2).advance 1) := (passes_look 2 c).trans (passes_one hhead)
        have hlt : ∀ {n}, n ≠ 0 → ((c.look 2).advance n).rest.length < c.rest.length :=
          fun hn => length_advance_lt hn hhead
        split at h
        · rename_i hsingle
          split at h
          · rename_i hquote
            split at h
            · rename_i htwice
              refine hnext ((passes_look 2 c).trans (passes_advance ?_)) (hlt (by decide)) h
              exact lt_length_of_peek (by rw [eq_of_beq htwice]; decide)
            · cases h
              refine passesWord_here (.inr ?_)
              rw [quote, if_pos hsingle]
              exact eq_of_beq hquote
          · exact hnext hone (hlt Nat.one_ne_zero) h
        · rename_i hsingle
          split at h
          · rename_i hquote
            cases h
            refine passesWord_here (.inr ?_)
            rw [quote, if_neg hsingle]
            exact eq_of_beq hquote
          · split at h
            · rename_i hbackslash
              split at h
              · cases h
                have hline : Passes c (((c.look 2).look 3).advance 1).passBreak :=
                  ((passes_look 2 c).trans (passes_look 3 _)).trans
                    ((passes_one (c := (c.look 2).look 3) hhead).trans (passes_passBreak _))
                refine ⟨hline, Nat.add_le_add_left hline.length_le _,
                  fun he => absurd he.symm Bool.false_ne_true, fun _ => ?_⟩
                exact Nat.lt_of_le_of_lt (passes_passBreak _).length_le
                  (length_advance_lt (c := (c.look 2).look 3) Nat.one_ne_zero hhead)
              · obtain ⟨⟨ch, d⟩, hd, h⟩ := exists_of_bind_ok h
                have hescape : Passes (c.look 2) d := passes_escape hd
                refine hnext ((passes_look 2 c).trans hescape) ?_ h
                exact length_escape_lt (c := c.look 2) hd
            · exact hnext hone (hlt Nat.one_ne_zero) h

/-- The white space that is read, and that some is read where it comes next. -/
theorem passes_quotedSpacing {indent : Int} {fresh fresh' : Bool} {s s' : Spacing}
    (h : quotedSpacing indent fuel fresh s c = .ok (fresh', s', c')) :
    Passes c c' ∧ s'.width + c'.rest.length ≤ s.width + c.rest.length ∧
      (0 < fuel → isBlank c.head || isBreak c.head → c'.rest.length < c.rest.length) := by
  induction fuel generalizing fresh s c with
  | zero =>
      cases h
      exact ⟨passes_refl c', Nat.le_refl _, fun h => absurd h (Nat.lt_irrefl 0)⟩
  | succ fuel ih =>
      -- some white space has been read, and there may be more
      have hnext : ∀ {fresh s₁ d}, Passes c d → s₁.width ≤ s.width + 1 →
          d.rest.length < c.rest.length →
          quotedSpacing indent fuel fresh s₁ d = .ok (fresh', s', c') →
            Passes c c' ∧ s'.width + c'.rest.length ≤ s.width + c.rest.length ∧
              (0 < fuel + 1 → isBlank c.head || isBreak c.head →
                c'.rest.length < c.rest.length) := by
        intro fresh s₁ d hd hs hlt h
        obtain ⟨hpasses, hwidth, -⟩ := ih h
        exact ⟨hd.trans hpasses, by omega, fun _ _ => Nat.lt_of_le_of_lt hpasses.length_le hlt⟩
      rw [quotedSpacing] at h
      split at h
      · rename_i hblank
        have hhead : c.head ≠ '\x00' := ne_end_of_class hblank
        have hone : Passes c ((c.advanceBlank 1).look 1) :=
          (passes_advanceBlank (lt_length_of_peek hhead)).trans (passes_look 1 _)
        have hlt : ((c.advanceBlank 1).look 1).rest.length < c.rest.length :=
          length_advance_lt (n := 1) Nat.one_ne_zero hhead
        split at h
        · refine hnext hone (Nat.le_of_eq ?_) hlt h
          show s.blanks.length + 1 + s.extra + s.broken.toNat = s.width + 1
          rw [Spacing.width]
          omega
        · split at h
          · cases h
          · exact hnext hone (Nat.le_succ _) hlt h
      · split at h
        · rename_i hbreak
          exact hnext ((passes_passBreak c).trans (passes_look 1 _)) (s.width_addBreak_le fresh)
            (length_passBreak_lt hbreak) h
        · rename_i hblank hbreak
          cases h
          refine ⟨passes_refl c', Nat.le_refl _, fun _ h => ?_⟩
          rcases Bool.or_eq_true_iff.mp h with h | h
          · exact absurd h hblank
          · exact absurd h hbreak

theorem passes_quotedBody {single : Bool} {indent : Int} (hfuel : c.rest.length < fuel)
    (h : quotedBody single indent start fuel acc c = .ok (acc', c')) :
    Passes c c' ∧ c'.head = quote single ∧
      acc'.length + c'.rest.length ≤ acc.length + c.rest.length := by
  induction fuel generalizing acc c with
  | zero => exact absurd hfuel (Nat.not_lt_zero _)
  | succ fuel ih =>
      rw [quotedBody] at h
      dsimp only at h
      split at h
      · cases h
      · split at h
        · cases h
        · rename_i hend
          split at h
          · cases h
          · obtain ⟨⟨acc₁, escaped, d⟩, hd, h⟩ := exists_of_bind_ok h
            have hword : PassesWord single escaped acc acc₁ (c.look 4) d :=
              passes_quotedWord (Nat.lt_succ_self _) hd
            have hpassed : Passes c (d.look 1) :=
              ((passes_look 4 c).trans hword.passes).trans (passes_look 1 d)
            dsimp only at h
            rw [show (if single = true then '\'' else '"') = quote single from rfl] at h
            split at h
            · rename_i hquote
              cases h
              exact ⟨hpassed, eq_of_beq hquote, hword.room⟩
            · rename_i hquote
              obtain ⟨⟨fresh, s, e⟩, he, h⟩ := exists_of_bind_ok h
              obtain ⟨hspacing, hwidth, hprogress⟩ := passes_quotedSpacing he
              dsimp only at h
              have hlt : e.rest.length < c.rest.length := by
                cases escaped with
                | true => exact Nat.lt_of_le_of_lt hspacing.length_le (hword.escaped rfl)
                | false =>
                    -- the word stops at white space, unless that is the end of the text
                    rcases hword.ended rfl with hgap | hq
                    · rcases Bool.or_eq_true_iff.mp hgap with hblank | hline
                      · exact Nat.lt_of_lt_of_le
                          (hprogress (Nat.succ_pos _) (Bool.or_eq_true_iff.mpr (.inl hblank)))
                          hpassed.length_le
                      · rcases Bool.or_eq_true_iff.mp hline with hbreak | hstop
                        · exact Nat.lt_of_lt_of_le
                            (hprogress (Nat.succ_pos _) (Bool.or_eq_true_iff.mpr (.inr hbreak)))
                            hpassed.length_le
                        · refine Nat.lt_of_le_of_lt hspacing.length_le
                            (hword.passes.length_lt fun heq => hend ?_)
                          rw [← heq]
                          exact hstop
                    · exact absurd (beq_iff_eq.mpr hq) hquote
              obtain ⟨hrest, hhead, hroom⟩ :=
                ih (Nat.lt_of_lt_of_le hlt (Nat.le_of_lt_succ hfuel)) h
              refine ⟨(hpassed.trans hspacing).trans hrest, hhead, hroom.trans ?_⟩
              -- the white space is paid with what has been passed after the word
              have hwhite := s.length_white_le fresh
              have hword := hword.room
              rw [List.length_append]
              rw [show Spacing.none.width = 0 from rfl] at hwidth
              simp only [look] at hwidth hword
              omega

/-- A scalar in quotes is passed, and its text is no longer than that. -/
theorem passes_quotedScalar {single inFlow : Bool} {indent : Int} {text : String}
    (hhead : c.head ≠ '\x00') (h : c.quotedScalar single inFlow indent = .ok (text, c')) :
    Passes c c' ∧ text.length ≤ c.rest.length := by
  obtain ⟨⟨acc, d⟩, hd, h⟩ := exists_of_bind_ok h
  obtain ⟨⟨found, e⟩, he, h⟩ := exists_of_bind_ok h
  obtain ⟨hbody, hquote, hroom⟩ := passes_quotedBody (Nat.lt_succ_self _) hd
  have hopen : Passes c (c.advance 1) := passes_one hhead
  dsimp only at h
  split at h
  · cases h
    have hclose : Passes d (d.advance 1) := passes_one (by rw [hquote]; exact quote_ne_end single)
    refine ⟨(hopen.trans hbody).trans (hclose.trans (passes_passInline he)), ?_⟩
    rw [String.length_ofList, List.length_reverse]
    exact (Nat.le_add_right _ _).trans (hroom.trans (by simpa using hopen.length_le))
  · cases h

/-! ### Plain scalars -/

theorem prefix_plainWord (inFlow : Bool) (cs : List Char) : plainWord inFlow cs <+: cs := by
  induction cs with
  | nil => exact List.prefix_rfl
  | cons ch cs ih =>
      rw [plainWord]
      split
      · exact List.cons_prefix_cons.mpr ⟨rfl, ih⟩
      · exact List.nil_prefix

variable {ctx : PlainContext} {s s' : Spacing}

theorem passes_plainSpacing (h : plainSpacing ctx fuel s c = .ok (s', c')) :
    Passes c c' ∧ s'.width + c'.rest.length ≤ s.width + c.rest.length := by
  induction fuel generalizing s c with
  | zero =>
      cases h
      exact ⟨passes_refl c', Nat.le_refl _⟩
  | succ fuel ih =>
      -- some white space has been read, and there may be more
      have hnext : ∀ {s₁ d}, Passes c d → s₁.width + d.rest.length ≤ s.width + c.rest.length →
          plainSpacing ctx fuel s₁ d = .ok (s', c') →
            Passes c c' ∧ s'.width + c'.rest.length ≤ s.width + c.rest.length :=
        fun hd hwidth h => ⟨hd.trans (ih h).1, (ih h).2.trans hwidth⟩
      rw [plainSpacing] at h
      dsimp only at h
      split at h
      · rename_i hblank
        have hlength : 0 < c.rest.length := lt_length_of_peek (ne_end_of_class hblank)
        have hone : Passes c ((c.look 1).advanceBlank 1) :=
          (passes_look 1 c).trans (passes_advanceBlank hlength)
        split at h
        · refine hnext hone ?_ h
          show s.blanks.length + 1 + s.extra + s.broken.toNat + (c.rest.drop 1).length ≤ _
          rw [Spacing.width, List.length_drop]
          omega
        · split at h
          · obtain ⟨⟨found, d⟩, hd, h⟩ := exists_of_bind_ok h
            dsimp only at h
            split at h
            · have hpasses := (passes_look 1 c).trans (passes_passInline hd)
              exact hnext hpasses (Nat.add_le_add_left hpasses.length_le _) h
            · cases h
          · exact hnext hone (Nat.add_le_add_left hone.length_le _) h
      · split at h
        · rename_i hbreak
          refine hnext ((passes_look 1 c).trans (passes_passBreak _)) ?_ h
          have hwidth := s.width_addBreak_le (c.look 1).atMargin
          have hlt : (c.look 1).passBreak.rest.length < c.rest.length := length_passBreak_lt hbreak
          omega
        · cases h
          exact ⟨passes_look 1 c, Nat.le_refl _⟩

/-- What has been read of a plain scalar stays, and has been passed, up to the white space before
it. -/
structure PassesPlain (s : Spacing) (acc acc' : List Char) (c c' : Cursor) : Prop where
  passes : Passes c c'
  stays : ∃ x, acc' = x ++ acc
  room : acc'.length + c'.rest.length ≤ acc.length + s.width + c.rest.length

theorem passesPlain_here (hpasses : Passes c c') (s : Spacing) : PassesPlain s acc acc c c' :=
  ⟨hpasses, ⟨[], rfl⟩, Nat.add_le_add (Nat.le_add_right _ _) hpasses.length_le⟩

theorem passes_afterWord (hbody : ∀ {s d}, plainBody ctx fuel acc s d = .ok (acc', c') →
    PassesPlain s acc acc' d c') (h : afterWord ctx fuel acc s c = .ok (acc', c')) :
    PassesPlain s acc acc' c c' := by
  unfold afterWord at h
  split at h
  · obtain ⟨⟨s₁, d⟩, hd, h⟩ := exists_of_bind_ok h
    obtain ⟨hspacing, hwidth⟩ := passes_plainSpacing hd
    dsimp only at h
    split at h
    · cases h
      exact passesPlain_here hspacing s
    · have hrest := hbody h
      exact ⟨hspacing.trans hrest.passes, hrest.stays, hrest.room.trans (by omega)⟩
  · cases h
    exact passesPlain_here (passes_refl _) s

theorem passes_plainBody (h : plainBody ctx fuel acc s c = .ok (acc', c')) :
    PassesPlain s acc acc' c c' := by
  induction fuel generalizing acc s c with
  | zero =>
      cases h
      exact passesPlain_here (passes_refl c') s
  | succ fuel ih =>
      rw [plainBody] at h
      dsimp only at h
      split at h
      · cases h
        exact passesPlain_here (passes_look 4 c) s
      · split at h
        · cases h
        · have hlook := passes_look 4 c
          cases hword : plainWord ctx.inFlow (c.look 4).rest with
          | nil =>
              rw [hword] at h
              have hafter := passes_afterWord (c := c.look 4) ih h
              exact ⟨hlook.trans hafter.passes, hafter.stays, hafter.room⟩
          | cons ch w =>
              rw [hword] at h
              have hle : (ch :: w).length ≤ (c.look 4).rest.length :=
                hword ▸ (prefix_plainWord ctx.inFlow (c.look 4).rest).length_le
              have h : afterWord ctx fuel ((ch :: w).reverse ++
                  ((if c.atMargin then s.folded else s.blanks) ++ acc)) .none
                  (((c.look 4).advance (ch :: w).length).look 2) = .ok (acc', c') := h
              obtain ⟨hpasses, ⟨x, hx⟩, hroom⟩ := passes_afterWord ih h
              refine ⟨(hlook.trans (passes_advance hle)).trans ((passes_look 2 _).trans hpasses),
                ⟨_, hx.trans (by rw [← List.append_assoc, ← List.append_assoc])⟩, hroom.trans ?_⟩
              have hwhite := s.length_white_le c.atMargin
              show _ + 0 + (c.rest.drop (ch :: w).length).length ≤ _
              have hle : (ch :: w).length ≤ c.rest.length := hle
              rw [List.length_drop, List.length_append, List.length_append, List.length_reverse]
              omega

/-- A plain scalar is passed, and its text is no longer than that. -/
theorem passes_plainScalar {inFlow : Bool} {indent : Int} {text : String}
    (h : c.plainScalar inFlow indent = .ok (text, c')) :
    Passes c c' ∧ text.length ≤ c.rest.length := by
  unfold plainScalar at h
  dsimp only at h
  split at h
  · cases h
  · obtain ⟨⟨acc, d⟩, hd, h⟩ := exists_of_bind_ok h
    cases h
    obtain ⟨hpasses, -, hroom⟩ := passes_plainBody hd
    refine ⟨hpasses, ?_⟩
    rw [String.length_ofList, List.length_reverse]
    exact (Nat.le_add_right _ _).trans (hroom.trans (Nat.le_of_eq (Nat.zero_add _)))

/-- **The text of a plain scalar begins where the scalar begins.** -/
theorem head?_plainScalar {inFlow : Bool} {indent : Int} {text : String}
    (hplain : isPlain inFlow c.head (c.peek 1) = true) (hmarker : c.isMarker = false)
    (hcomment : c.head ≠ '#') (h : c.plainScalar inFlow indent = .ok (text, c')) :
    text.toList.head? = some c.head := by
  unfold plainScalar at h
  dsimp only at h
  split at h
  · cases h
  · obtain ⟨⟨acc, d⟩, hd, h⟩ := exists_of_bind_ok h
    cases h
    rw [String.toList_ofList]
    cases hrest : c.rest with
    | nil =>
        rw [head_of_rest_nil hrest] at hplain
        simp [isPlain, isGap, isLineEnd, isEnd] at hplain
    | cons ch r =>
        have hhead := head_of_rest hrest
        have hpeek : c.peek 1 = r.headD '\x00' := by
          rw [peek, hrest]
          cases r <;> rfl
        have hword : plainWord inFlow (c.look 4).rest = ch :: plainWord inFlow r := by
          show plainWord inFlow c.rest = _
          rw [hrest, plainWord, ← hpeek, ← hhead, if_pos hplain]
        rw [plainBody] at hd
        dsimp only at hd
        have hstart : ((c.look 4).isMarker || (c.look 4).head == '#') = false := by
          rw [Bool.or_eq_false_iff, beq_eq_false_iff_ne]
          exact ⟨hmarker, hcomment⟩
        rw [hstart, if_neg Bool.false_ne_true] at hd
        split at hd
        · cases hd
        · rw [hword] at hd
          obtain ⟨x, hx⟩ := (passes_afterWord passes_plainBody hd).stays
          rw [hx, white_none, hhead]
          simp

/-! ### Block scalars -/

/-- A text of characters of one byte. -/
def Narrow (cs : List Char) : Prop :=
  ∀ ch ∈ cs, ch.utf8Size = 1

/-- The cursor has gone on, and if this holds, by as many characters as its index says. -/
structure PassesIf (p : Prop) (c c' : Cursor) : Prop where
  suffix : c'.rest <:+ c.rest
  passes : p → Passes c c'

variable {p q : Prop}

theorem Passes.passesIf (h : Passes c c') : PassesIf p c c' :=
  ⟨h.suffix, fun _ => h⟩

theorem PassesIf.trans (h : PassesIf p c c') (h' : PassesIf q c' d) (hp : q → p) :
    PassesIf q c d :=
  ⟨h'.suffix.trans h.suffix, fun hq => (h.passes (hp hq)).trans (h'.passes hq)⟩

theorem PassesIf.mono (h : PassesIf p c c') (hq : q → p) : PassesIf q c c' :=
  ⟨h.suffix, fun h' => h.passes (hq h')⟩

theorem passes_increment {n : Option Nat} (h : c.increment start = .ok (n, c')) : Passes c c' := by
  unfold increment at h
  dsimp only at h
  split at h
  · cases h
  · split at h
    · rename_i hdigit
      cases h
      exact (passes_look 1 c).trans (passes_one (ne_end_of_class hdigit))
    · cases h
      exact passes_look 1 c

theorem ne_end_of_chomping? {ch : Char} {chomping : Chomping} (h : chomping? ch = some chomping) :
    ch ≠ '\x00' := by
  rintro rfl
  cases h

theorem passes_blockHeader {header : BlockHeader} (h : c.blockHeader start = .ok (header, c')) :
    Passes c c' := by
  unfold blockHeader at h
  dsimp only at h
  split at h
  · rename_i chomping hchomping
    obtain ⟨⟨n, d⟩, hd, h⟩ := exists_of_bind_ok h
    cases h
    exact ((passes_look 1 c).trans (passes_one (ne_end_of_chomping? hchomping))).trans
      (passes_increment hd)
  · obtain ⟨⟨n, d⟩, hd, h⟩ := exists_of_bind_ok h
    have hcount : Passes c d := (passes_look 1 c).trans (passes_increment hd)
    dsimp only at h
    split at h
    · cases h
      exact hcount
    · split at h
      · rename_i chomping hchomping
        cases h
        exact (hcount.trans (passes_look 1 d)).trans (passes_one (ne_end_of_chomping? hchomping))
      · cases h
        exact hcount.trans (passes_look 1 d)

variable {column : Nat}

theorem passes_passIndent (c : Cursor) : Passes c (c.passIndent fuel column) := by
  induction fuel generalizing c with
  | zero => exact passes_refl c
  | succ fuel ih =>
      have hspaces : Passes c ((c.look window).advanceBlank (min (min
          ((c.look window).run (· == ' ')).length (column - (c.look window).column))
          (c.look window).seen)) := by
        refine (passes_look window c).trans (passes_advanceBlank ?_)
        have hle := length_run_le (· == ' ') (c.look window)
        omega
      rw [passIndent]
      split
      · exact hspaces
      · exact hspaces.trans (ih _)

theorem passes_passIndentation (column : Nat) (c : Cursor) :
    Passes c (c.passIndentation column) := by
  unfold passIndentation
  split
  · refine (passes_look window c).trans (passes_advanceBlank ?_)
    exact Nat.le_trans (Nat.min_le_left _ _) (length_run_le _ _)
  · exact (passes_passIndent c).trans (passes_look 2 _)

theorem passes_passEmptyLines (column fuel breaks : Nat) (c : Cursor) :
    Passes c (c.passEmptyLines column fuel breaks).2 ∧
      (c.passEmptyLines column fuel breaks).1 +
        (c.passEmptyLines column fuel breaks).2.rest.length ≤ breaks + c.rest.length := by
  induction fuel generalizing breaks c with
  | zero => exact ⟨passes_refl c, Nat.le_refl _⟩
  | succ fuel ih =>
      have hindent := passes_passIndentation column c
      rw [passEmptyLines]
      split
      · rename_i hbreak
        obtain ⟨hpasses, hbreaks⟩ := ih (breaks + 1) (c.passIndentation column).passBreak
        have hlt := length_passBreak_lt hbreak
        have hle := hindent.length_le
        exact ⟨(hindent.trans (passes_passBreak _)).trans hpasses, by omega⟩
      · exact ⟨hindent, Nat.add_le_add_left hindent.length_le _⟩

theorem passes_passToText (fuel breaks widest : Nat) (c : Cursor) :
    Passes c (c.passToText fuel breaks widest).2.2 ∧
      (c.passToText fuel breaks widest).1 +
        (c.passToText fuel breaks widest).2.2.rest.length ≤ breaks + c.rest.length := by
  induction fuel generalizing breaks widest c with
  | zero => exact ⟨passes_refl c, Nat.le_refl _⟩
  | succ fuel ih =>
      have hblanks := passes_passBlanks (· == ' ') c
      rw [passToText]
      split
      · rename_i hbreak
        obtain ⟨hpasses, hbreaks⟩ := ih (breaks + 1)
          (max widest (c.passBlanks (· == ' ')).column) (c.passBlanks (· == ' ')).passBreak
        have hlt := length_passBreak_lt hbreak
        have hle := hblanks.length_le
        exact ⟨(hblanks.trans (passes_passBreak _)).trans hpasses, by omega⟩
      · exact ⟨hblanks, Nat.add_le_add_left hblanks.length_le _⟩

/-- The rest of a line is passed, and counted rightly if its characters are of one byte. -/
theorem passes_contentLine (c : Cursor) : PassesIf (Narrow c.contentLine.1) c c.contentLine.2 := by
  have hrun := length_run_le (fun ch => !isLineEnd ch) c
  have hknown : Passes c (c.advanceBlank
      (min (c.run fun ch => !isLineEnd ch).length c.seen)) :=
    passes_advanceBlank (Nat.le_trans (Nat.min_le_left _ _) hrun)
  unfold contentLine
  dsimp only
  split
  · exact hknown.passesIf
  · refine ⟨(List.drop_suffix _ _).trans hknown.suffix, fun hnarrow => ?_⟩
    refine ⟨(List.drop_suffix _ _).trans hknown.suffix, ?_⟩
    have hbytes := Text.utf8Length_of_ascii
      ((c.run fun ch => !isLineEnd ch).drop (min (c.run fun ch => !isLineEnd ch).length c.seen))
      fun ch hch => hnarrow ch (List.mem_of_mem_drop hch)
    rw [← hknown.index]
    simp only [hbytes, List.length_drop, advanceBlank]
    omega

/-- A line is no longer than what is passed, and no less than all of it up to its end. -/
theorem length_contentLine (c : Cursor) :
    c.contentLine.1.length + c.contentLine.2.rest.length = c.rest.length ∧
      isLineEnd c.contentLine.2.head = true := by
  obtain ⟨d, hd, hrest, -⟩ := contentLine_eq c
  rw [hd]
  refine ⟨?_, ?_⟩
  · rw [hrest, ← List.length_append, List.takeWhile_append_dropWhile]
  · have hstop := List.head?_dropWhile_not (fun ch => !isLineEnd ch) c.rest
    rw [head_eq_headD, hrest]
    cases hline : c.rest.dropWhile fun ch => !isLineEnd ch with
    | nil => rfl
    | cons ch r =>
        rw [hline] at hstop
        simpa using hstop

namespace BlockText

/-- So long is the text of a block scalar with all its last breaks. -/
def width (t : BlockText) : Nat :=
  t.acc.length + t.empties + t.broken.toNat

theorem subset_addLine (literal blank : Bool) (t : BlockText) (line : List Char) :
    t.acc ⊆ (t.addLine literal blank line).acc ∧ line ⊆ (t.addLine literal blank line).acc := by
  refine ⟨fun ch hch => ?_, fun ch hch => ?_⟩
  · exact List.mem_append_right _ (List.mem_append_right _ hch)
  · exact List.mem_append_left _ (List.mem_reverse.mpr hch)

theorem length_joint_le (literal blank : Bool) (t : BlockText) :
    (t.joint literal blank).length ≤ t.empties + t.broken.toNat := by
  unfold joint
  split
  · rename_i h
    simp only [Bool.and_eq_true] at h
    rw [h.1.1.2]
    split
    · exact Nat.le_add_left 1 _
    · rw [List.length_replicate]
      exact Nat.le_add_right _ _
  · rw [List.length_replicate]
    cases t.broken <;> exact Nat.le_refl _

theorem width_addLine_le (literal blank : Bool) (t : BlockText) (line : List Char) :
    (t.addLine literal blank line).width ≤ t.width + line.length := by
  have hjoint := t.length_joint_le literal blank
  show (line.reverse ++ (t.joint literal blank ++ t.acc)).length + 0 + 0 ≤ _
  rw [List.length_append, List.length_append, List.length_reverse, width]
  omega

/-- A line that has ended, with the empty lines after it. -/
theorem width_broken_le (t : BlockText) (empties : Nat) :
    ({ t with broken := true, empties } : BlockText).width ≤ t.width + empties + 1 := by
  show t.acc.length + empties + 1 ≤ t.acc.length + t.empties + t.broken.toNat + empties + 1
  omega

end BlockText

/-- What has been read of a block scalar stays, and has been passed with its breaks.  The lines are
counted rightly if all characters are of one byte. -/
structure PassesLines (t t' : BlockText) (c c' : Cursor) : Prop where
  stays : t.acc ⊆ t'.acc
  passes : PassesIf (Narrow t'.acc) c c'
  room : t'.width + c'.rest.length ≤ t.width + c.rest.length

theorem passesLines_here (hpasses : Passes c c') (t : BlockText) : PassesLines t t c c' :=
  ⟨List.Subset.refl _, hpasses.passesIf, Nat.add_le_add_left hpasses.length_le _⟩

theorem passes_blockLines {literal : Bool} {t : BlockText} (c : Cursor) :
    PassesLines t (c.blockLines literal column fuel t).1 c
      (c.blockLines literal column fuel t).2 := by
  induction fuel generalizing t c with
  | zero => exact passesLines_here (passes_refl c) t
  | succ fuel ih =>
      rw [blockLines]
      split
      · exact passesLines_here (passes_refl c) t
      · have hlook : Passes c (if column == 0 then c.look 4 else c) := by
          split
          · exact passes_look 4 c
          · exact passes_refl c
        dsimp only
        generalize (if column == 0 then c.look 4 else c) = d at hlook
        split
        · exact passesLines_here hlook t
        · have hline := passes_contentLine d
          obtain ⟨hlength, hstop⟩ := length_contentLine d
          obtain ⟨hacc, hnew⟩ := t.subset_addLine literal (isBlank d.head) d.contentLine.1
          have hwidth := t.width_addLine_le literal (isBlank d.head) d.contentLine.1
          have hle := hlook.length_le
          split
          · refine ⟨hacc, (hlook.passesIf.trans hline fun _ => trivial).trans
              (passes_look 2 _).passesIf fun h ch hch => h ch (hnew hch), ?_⟩
            show (t.addLine literal (isBlank d.head) d.contentLine.1).width +
              d.contentLine.2.rest.length ≤ _
            omega
          · rename_i hend
            have hbreak : isBreak (d.contentLine.2.look 2).head = true := by
              have hstop : isLineEnd (d.contentLine.2.look 2).head = true := hstop
              rw [isLineEnd, Bool.or_eq_true] at hstop
              exact hstop.resolve_right hend
            have hlt : (d.contentLine.2.look 2).passBreak.rest.length <
                d.contentLine.2.rest.length := length_passBreak_lt hbreak
            obtain ⟨hempty, hempties⟩ := passes_passEmptyLines column
              ((d.contentLine.2.look 2).rest.length + 1) 0 (d.contentLine.2.look 2).passBreak
            have hnext : Passes d.contentLine.2 ((d.contentLine.2.look 2).passBreak.passEmptyLines
                column ((d.contentLine.2.look 2).rest.length + 1) 0).2 :=
              (passes_look 2 _).trans ((passes_passBreak _).trans hempty)
            obtain ⟨hacc', hrest, hroom⟩ := ih (t := {
              t.addLine literal (isBlank d.head) d.contentLine.1 with
              broken := true
              empties := ((d.contentLine.2.look 2).passBreak.passEmptyLines column
                ((d.contentLine.2.look 2).rest.length + 1) 0).1 })
              ((d.contentLine.2.look 2).passBreak.passEmptyLines column
                ((d.contentLine.2.look 2).rest.length + 1) 0).2
            refine ⟨fun ch hch => hacc' (hacc hch), ?_, hroom.trans ?_⟩
            · refine (hlook.passesIf.trans hline fun _ => trivial).trans
                (hnext.passesIf.trans hrest fun h => h) fun h ch hch => h ch (hacc' (hnew hch))
            · -- the break of the line has been passed, and so have the empty lines
              refine (Nat.add_le_add_right (BlockText.width_broken_le _ _) _).trans ?_
              omega

theorem subset_blockEnd (chomping : Chomping) (column : Nat) (t : BlockText) (c : Cursor) :
    t.acc ⊆ blockEnd chomping column t c := by
  intro ch hch
  cases chomping with
  | strip => exact hch
  | clip | keep => exact List.mem_append_right _ hch

/-- A block scalar from its first line with text on, after so many empty lines, where the column of
its lines has been found. -/
def blockContent (literal : Bool) (indent : Int) (chomping : Chomping) (start : Mark)
    (empties column : Nat) (c : Cursor) : Except Fault (Mark × String × Cursor) :=
  if isEnd c.head then
    .ok (start, String.ofList (blockWithoutLines chomping (c.mark.line == start.line) empties), c)
  else if c.column < column && indent < c.column then c.fault .blockIndentation
  else
    let (t, d) := c.blockLines literal column (c.rest.length + 1) ⟨[], false, empties, false⟩
    .ok (c.mark, String.ofList (blockEnd chomping column t d).reverse, d)

theorem length_blockEnd_le (chomping : Chomping) (column : Nat) (t : BlockText) (c : Cursor) :
    (blockEnd chomping column t c).length ≤ t.width + 1 := by
  have hclosing : ((if t.broken then 1 else 0) +
      if isEnd c.head && decide (max column 1 ≤ c.column) then 1 else 0) ≤ t.broken.toNat + 1 := by
    refine Nat.add_le_add ?_ ?_
    · cases t.broken <;> exact Nat.le_refl _
    · split
      · exact Nat.le_refl 1
      · exact Nat.zero_le 1
  cases chomping with
  | strip =>
      show t.acc.length ≤ t.acc.length + t.empties + t.broken.toNat + 1
      omega
  | clip =>
      unfold blockEnd BlockText.width
      dsimp only
      rw [List.length_append, List.length_replicate]
      omega
  | keep =>
      unfold blockEnd BlockText.width
      dsimp only
      rw [List.length_append, List.length_replicate]
      omega

theorem length_blockWithoutLines_le (chomping : Chomping) (sameLine : Bool) (empties : Nat) :
    (blockWithoutLines chomping sameLine empties).length ≤ empties + 1 := by
  unfold blockWithoutLines
  split
  · exact Nat.zero_le _
  · cases chomping with
    | strip => exact Nat.zero_le _
    | clip => exact Nat.le_add_left 1 _
    | keep =>
        dsimp only
        rw [List.length_replicate]
        omega

theorem passes_blockContent {literal : Bool} {indent : Int} {chomping : Chomping}
    {empties : Nat} {m : Mark} {text : String}
    (h : c.blockContent literal indent chomping start empties column = .ok (m, text, c')) :
    PassesIf (Narrow text.toList) c c' ∧ text.length ≤ empties + c.rest.length + 1 := by
  unfold blockContent at h
  split at h
  · cases h
    refine ⟨(passes_refl _).passesIf, ?_⟩
    have hlength := length_blockWithoutLines_le chomping (c.mark.line == start.line) empties
    rw [String.length_ofList]
    omega
  · split at h
    · cases h
    · cases h
      have hlines : PassesLines ⟨[], false, empties, false⟩ (c.blockLines literal column
          (c.rest.length + 1) ⟨[], false, empties, false⟩).1 c _ := passes_blockLines c
      refine ⟨hlines.passes.mono fun hnarrow ch hch => hnarrow ch ?_, ?_⟩
      · rw [String.toList_ofList, List.mem_reverse]
        exact subset_blockEnd _ _ _ _ hch
      · rw [String.length_ofList, List.length_reverse]
        refine (length_blockEnd_le _ _ _ _).trans (Nat.add_le_add_right ?_ 1)
        refine (Nat.le_add_right _ _).trans (hlines.room.trans (Nat.le_of_eq ?_))
        exact congrArg (· + c.rest.length) (Nat.zero_add empties)

/-- **A block scalar is passed, and counted rightly if its text has only characters of one
byte.**  The text is no longer than what is passed. -/
theorem passes_blockScalar {literal : Bool} {indent : Int} {m : Mark} {text : String}
    (hhead : c.head ≠ '\x00') (h : c.blockScalar literal indent = .ok (m, text, c')) :
    PassesIf (Narrow text.toList) c c' ∧ text.length ≤ c.rest.length := by
  obtain ⟨⟨header, d⟩, hd, h⟩ := exists_of_bind_ok h
  obtain ⟨⟨found, e⟩, he, h⟩ := exists_of_bind_ok h
  have hheader : Passes (c.advance 1) e := (passes_blockHeader hd).trans (passes_passInline he)
  have hlt : (c.advance 1).rest.length < c.rest.length :=
    length_advance_lt Nat.one_ne_zero hhead
  dsimp only at h
  split at h
  · cases h
  · have hline : Passes (c.advance 1) ((if isBreak e.head then e.passBreak else e).look 1) := by
      refine hheader.trans (.trans ?_ (passes_look 1 _))
      split
      · exact passes_passBreak e
      · exact passes_refl e
    generalize (if isBreak e.head then e.passBreak else e).look 1 = f at h hline
    split at h
    · cases h
    · -- whether the column is given or found, its lines are read in the same way
      have hcontent : ∀ {empties column : Nat} {g : Cursor},
          Passes f g ∧ empties + g.rest.length ≤ 0 + f.rest.length →
          g.blockContent literal indent header.chomping c.mark empties column = .ok (m, text, c') →
            PassesIf (Narrow text.toList) c c' ∧ text.length ≤ c.rest.length := by
        rintro empties column g ⟨hg, hempties⟩ h
        obtain ⟨hpasses, hlength⟩ := passes_blockContent h
        have hle := hline.length_le
        exact ⟨(((passes_one hhead).trans hline).trans hg).passesIf.trans hpasses fun h => h,
          by omega⟩
      split at h
      · exact hcontent (passes_passEmptyLines _ _ _ f) h
      · exact hcontent (passes_passToText _ _ _ f) h

end Cursor

end YamlDelta.Markup
