/-
What a cursor passes.

Whatever is read, the cursor goes on through its text, and its index counts the characters that it
passes (`Passes`).  Nothing behind the end of the text is ever passed: one character, or two or
three, are only passed where they have been seen to be there.  This module goes through blanks,
anchors, tags and directives; the scalars, one kind of which is an exception, have a module of their
own.
-/
import Mathlib.Data.List.Infix
import YamlDelta.Markup.Token.Property
import YamlDelta.Proofs.Markup.Motion
import YamlDelta.Proofs.Markup.Reading

namespace YamlDelta.Markup

/-- A class without the character that stands for the end. -/
theorem ne_end_of_class {p : Char → Bool} {ch : Char} (h : p ch = true)
    (hp : p '\x00' = false := by decide) : ch ≠ '\x00' := by
  rintro rfl
  rw [hp] at h
  cases h

namespace Cursor

/-- The cursor has gone on, and its index by as many characters as it has passed. -/
structure Passes (c c' : Cursor) : Prop where
  suffix : c'.rest <:+ c.rest
  index : c'.mark.index + c'.rest.length = c.mark.index + c.rest.length

variable {c c' d : Cursor} {n : Nat} {p : Char → Bool}

theorem passes_refl (c : Cursor) : Passes c c :=
  ⟨List.suffix_refl _, rfl⟩

theorem Passes.trans (h : Passes c c') (h' : Passes c' d) : Passes c d :=
  ⟨h'.suffix.trans h.suffix, h'.index.trans h.index⟩

theorem passes_look (n : Nat) (c : Cursor) : Passes c (c.look n) :=
  ⟨List.suffix_refl _, rfl⟩

/-- Something comes next that is not the end. -/
theorem lt_length_of_peek {i : Nat} (h : c.peek i ≠ '\x00') : i < c.rest.length := by
  refine Nat.lt_of_not_le fun hle => h ?_
  rw [peek, List.getD_eq_getElem?_getD, List.getElem?_eq_none hle]
  rfl

theorem head?_rest (h : c.head ≠ '\x00') : c.rest.head? = some c.head := by
  rw [head_eq_headD] at h ⊢
  cases hrest : c.rest with
  | nil =>
      rw [hrest] at h
      exact absurd rfl h
  | cons ch r => rfl

/-! ### Characters -/

theorem passes_advanceBlank (h : n ≤ c.rest.length) : Passes c (c.advanceBlank n) := by
  refine ⟨List.drop_suffix n c.rest, ?_⟩
  show c.mark.index + n + (c.rest.drop n).length = _
  rw [List.length_drop]
  omega

theorem passes_advance (h : n ≤ c.rest.length) : Passes c (c.advance n) :=
  ⟨(passes_advanceBlank h).suffix, (passes_advanceBlank h).index⟩

theorem passes_one (h : c.head ≠ '\x00') : Passes c (c.advance 1) :=
  passes_advance (lt_length_of_peek h)

theorem passes_advanceBreak (h : c.head ≠ '\x00') : Passes c c.advanceBreak := by
  have hlength := lt_length_of_peek h
  refine ⟨List.drop_suffix 1 c.rest, ?_⟩
  show c.mark.index + 1 + (c.rest.drop 1).length = _
  rw [List.length_drop]
  omega

theorem passes_endLine (c : Cursor) : Passes c c.endLine := by
  unfold endLine
  split
  · exact passes_refl c
  · exact ⟨List.suffix_refl _, rfl⟩

theorem passes_passBreak (c : Cursor) : Passes c c.passBreak := by
  unfold passBreak
  dsimp only
  split
  · rename_i h
    rw [Bool.and_eq_true, beq_iff_eq, beq_iff_eq] at h
    have hlength := lt_length_of_peek (c := c.look 2) (i := 1) (by rw [h.2]; decide)
    refine ⟨(List.drop_suffix 1 _).trans (List.drop_suffix 1 _), ?_⟩
    show c.mark.index + 1 + 1 + ((c.rest.drop 1).drop 1).length = c.mark.index + c.rest.length
    have hlength : 1 < c.rest.length := hlength
    rw [List.length_drop, List.length_drop]
    omega
  · split
    · rename_i h
      exact (passes_look 2 c).trans (passes_advanceBreak (ne_end_of_class h))
    · exact passes_look 2 c

/-! ### How much is left -/

theorem Passes.length_le (h : Passes c c') : c'.rest.length ≤ c.rest.length :=
  h.suffix.length_le

/-- Where another character comes next, some have been passed. -/
theorem Passes.length_lt (h : Passes c c') (hhead : c'.head ≠ c.head) :
    c'.rest.length < c.rest.length := by
  refine Nat.lt_of_le_of_ne h.length_le fun hlength => hhead ?_
  rw [head_eq_headD, head_eq_headD, h.suffix.eq_of_length hlength]

theorem length_advance_lt (hn : n ≠ 0) (h : c.head ≠ '\x00') :
    (c.advance n).rest.length < c.rest.length := by
  have hlength := lt_length_of_peek h
  show (c.rest.drop n).length < _
  rw [List.length_drop]
  omega

theorem length_passBreak_lt (h : isBreak c.head = true) :
    c.passBreak.rest.length < c.rest.length := by
  have hlength := lt_length_of_peek (ne_end_of_class h)
  have hbreak : isBreak (c.look 2).head = true := h
  unfold passBreak
  dsimp only
  rw [if_pos hbreak]
  split
  · show ((c.rest.drop 1).drop 1).length < _
    rw [List.length_drop, List.length_drop]
    omega
  · show (c.rest.drop 1).length < _
    rw [List.length_drop]
    omega

/-! ### Runs -/

theorem length_run_le (p : Char → Bool) (c : Cursor) : (c.run p).length ≤ c.rest.length :=
  (List.takeWhile_prefix p).length_le

theorem passes_passWhile (n : Nat) (p : Char → Bool) (c : Cursor) : Passes c (c.passWhile n p) :=
  ((passes_look n c).trans (passes_advance (c := c.look n) (length_run_le p c))).trans
    (passes_look n _)

theorem passes_passBlanks (p : Char → Bool) (c : Cursor) : Passes c (c.passBlanks p) :=
  ((passes_look 1 c).trans (passes_advanceBlank (c := c.look 1) (length_run_le p c))).trans
    (passes_look 1 _)

theorem passes_passLine (c : Cursor) : Passes c c.passLine :=
  passes_passWhile 1 _ c

theorem passes_passInline {tabs : Bool} {found : Blanks}
    (h : c.passInline tabs = .ok (found, c')) : Passes c c' := by
  unfold passInline at h
  dsimp only at h
  split at h
  · split at h
    · cases h
    · cases h
      exact (passes_passBlanks _ c).trans (passes_passLine _)
  · cases h
    exact passes_passBlanks _ c

theorem length_passLine_lt (h : isLineEnd c.head = false) :
    c.passLine.rest.length < c.rest.length := by
  have hhead : c.head ≠ '\x00' := fun heq => by
    rw [heq] at h
    cases h
  obtain ⟨ch, r, hrest⟩ := List.exists_cons_of_length_pos
    (Nat.zero_lt_of_lt (lt_length_of_peek (i := 0) hhead))
  have hrun : c.run (fun ch => !isLineEnd ch) = ch :: r.takeWhile fun ch => !isLineEnd ch := by
    rw [head_of_rest hrest] at h
    rw [run, hrest, List.takeWhile_cons_of_pos (by rw [h]; rfl)]
  refine length_advance_lt (c := c.look 1) ?_ hhead
  rw [hrun]
  exact Nat.succ_ne_zero _

/-! ### Anchors and tags -/

theorem passes_anchorName {name : String} (hhead : c.head ≠ '\x00')
    (h : c.anchorName = .ok (name, c')) : Passes c c' := by
  unfold anchorName at h
  dsimp only at h
  split at h
  · cases h
  · cases h
    exact (passes_one hhead).trans (passes_passWhile 1 _ _)

variable {start : Mark} {acc acc' : List Char} {fuel : Nat}

theorem passes_octet {o : Nat} (h : c.octet start = .ok (o, c')) : Passes c c' := by
  unfold octet at h
  dsimp only at h
  split at h
  · rename_i hdigits
    cases h
    rw [Bool.and_eq_true] at hdigits
    exact (passes_look 3 c).trans
      (passes_advance (lt_length_of_peek (ne_end_of_class hdigits.2)))
  · cases h

theorem passes_trailingOctets {n code code' : Nat}
    (h : trailingOctets start n code c = .ok (code', c')) : Passes c c' := by
  induction n generalizing code c with
  | zero =>
      cases h
      exact passes_refl c'
  | succ n ih =>
      obtain ⟨⟨o, d⟩, hd, h⟩ := exists_of_bind_ok h
      dsimp only at h
      split at h
      · exact (passes_octet hd).trans (ih h)
      · cases h

theorem passes_escapedOctets {ch : Char} (h : c.escapedOctets start = .ok (ch, c')) :
    Passes c c' := by
  obtain ⟨⟨o, d⟩, hd, h⟩ := exists_of_bind_ok h
  dsimp only at h
  split at h
  · cases h
  · obtain ⟨⟨code, e⟩, he, h⟩ := exists_of_bind_ok h
    dsimp only at h
    split at h
    · cases h
    · cases h
      exact (passes_octet hd).trans (passes_trailingOctets he)

theorem passes_uriRun (hp : p '\x00' = false) (h : uriRun start p fuel acc c = .ok (acc', c')) :
    Passes c c' := by
  induction fuel generalizing acc c with
  | zero =>
      cases h
      exact passes_refl c'
  | succ fuel ih =>
      rw [uriRun] at h
      dsimp only at h
      split at h
      · rename_i hclass
        split at h
        · obtain ⟨⟨ch, d⟩, hd, h⟩ := exists_of_bind_ok h
          exact ((passes_look 1 c).trans (passes_escapedOctets hd)).trans (ih h)
        · exact ((passes_look 1 c).trans (passes_one (ne_end_of_class hclass hp))).trans (ih h)
      · cases h
        exact passes_look 1 c

theorem passes_uri {text : List Char} (hp : p '\x00' = false) (h : c.uri start p = .ok (text, c')) :
    Passes c c' := by
  obtain ⟨⟨acc, d⟩, hd, h⟩ := exists_of_bind_ok h
  cases h
  exact passes_uriRun hp hd

theorem passes_tagHandle {directive : Bool} {handle : List Char}
    (h : c.tagHandle directive start = .ok (handle, c')) : Passes c c' := by
  unfold tagHandle at h
  dsimp only at h
  split at h
  · cases h
  · rename_i hmark
    have hmark' : (c.look 1).head = '!' := by simpa using hmark
    have hname : Passes c (((c.look 1).advance 1).passWhile 1 isWord) :=
      ((passes_look 1 c).trans (passes_one (by rw [hmark']; decide))).trans (passes_passWhile 1 _ _)
    split at h
    · rename_i hclose
      cases h
      exact hname.trans (passes_one (by rw [eq_of_beq hclose]; decide))
    · split at h
      · cases h
      · cases h
        exact hname

theorem passes_verbatimTag {l : Lexeme} (hopen : c.peek 1 = '<')
    (h : c.verbatimTag start = .ok (l, c')) : Passes c c' := by
  obtain ⟨⟨text, d⟩, hd, h⟩ := exists_of_bind_ok h
  have htwo : Passes c (c.advance 2) :=
    passes_advance (lt_length_of_peek (i := 1) (by rw [hopen]; decide))
  dsimp only at h
  split at h
  · rename_i hclose
    cases h
    exact (htwo.trans (passes_uri (by decide) hd)).trans
      (passes_one (by rw [eq_of_beq hclose]; decide))
  · cases h

theorem passes_shorthandTag {l : Lexeme} (h : c.shorthandTag start = .ok (l, c')) :
    Passes c c' := by
  obtain ⟨⟨handle, d⟩, hd, h⟩ := exists_of_bind_ok h
  obtain ⟨⟨suffix, e⟩, he, h⟩ := exists_of_bind_ok h
  have htag : Passes c e := (passes_tagHandle hd).trans (passes_uri (by decide) he)
  dsimp only at h
  repeat' split at h
  all_goals cases h
  all_goals exact htag

theorem passes_tag {inFlow : Bool} {l : Lexeme} (h : c.tag inFlow = .ok (l, c')) :
    Passes c c' := by
  have hend : ∀ {l' : Lexeme} {d : Cursor},
      (if isGap (d.look 1).head || inFlow && isFlow (d.look 1).head then .ok (l', d.look 1)
        else .error ⟨c.mark, .tagEnd⟩ : Except Fault (Lexeme × Cursor)) = .ok (l, c') →
        Passes d c' := by
    intro l' d h
    split at h
    · cases h
      exact passes_look 1 d
    · cases h
  unfold tag at h
  dsimp only at h
  split at h
  · rename_i hopen
    obtain ⟨⟨l', d⟩, hd, h⟩ := exists_of_bind_ok h
    exact ((passes_look 2 c).trans (passes_verbatimTag (eq_of_beq hopen) hd)).trans (hend h)
  · obtain ⟨⟨l', d⟩, hd, h⟩ := exists_of_bind_ok h
    exact ((passes_look 2 c).trans (passes_shorthandTag hd)).trans (hend h)

/-! ### Directives -/

theorem passes_versionPart (h : c.versionPart start = .ok c') : Passes c c' := by
  unfold versionPart at h
  dsimp only at h
  repeat' split at h
  all_goals cases h
  exact passes_passWhile 1 _ c

theorem passes_versionDirective {l : Lexeme} (h : c.versionDirective start = .ok (l, c')) :
    Passes c c' := by
  obtain ⟨d, hd, h⟩ := exists_of_bind_ok h
  split at h
  · cases h
  · rename_i hpoint
    have hpoint' : d.head = '.' := by simpa using hpoint
    obtain ⟨e, he, h⟩ := exists_of_bind_ok h
    cases h
    exact ((passes_passBlanks _ c).trans (passes_versionPart hd)).trans
      ((passes_one (by rw [hpoint']; decide)).trans (passes_versionPart he))

theorem passes_tagExpansion {text : List Char} (h : c.tagExpansion start = .ok (text, c')) :
    Passes c c' := by
  unfold tagExpansion at h
  dsimp only at h
  split at h
  · rename_i hlocal
    obtain ⟨⟨text', d⟩, hd, h⟩ := exists_of_bind_ok h
    cases h
    exact ((passes_look 1 c).trans (passes_one (by rw [eq_of_beq hlocal]; decide))).trans
      (passes_uri (by decide) hd)
  · split at h
    · exact (passes_look 1 c).trans (passes_uri (by decide) h)
    · cases h

theorem passes_tagDirective {l : Lexeme} (h : c.tagDirective start = .ok (l, c')) :
    Passes c c' := by
  obtain ⟨⟨handle, d⟩, hd, h⟩ := exists_of_bind_ok h
  obtain ⟨⟨text, e⟩, he, h⟩ := exists_of_bind_ok h
  have hparts : Passes c e :=
    ((passes_passBlanks _ c).trans (passes_tagHandle hd)).trans
      ((passes_passBlanks _ d).trans (passes_tagExpansion he))
  dsimp only at h
  split at h
  · cases h
    exact hparts.trans (passes_look 1 e)
  · cases h

theorem passes_directiveName {name : List Char} (h : c.directiveName = .ok (name, c')) :
    Passes c c' := by
  unfold directiveName at h
  dsimp only at h
  repeat' split at h
  all_goals cases h
  exact passes_passWhile 1 _ c

theorem passes_directive {l : Lexeme} (hhead : c.head ≠ '\x00') (h : c.directive = .ok (l, c')) :
    Passes c c' := by
  have hend : ∀ {l' : Lexeme} {d : Cursor}, ((d.passInline true).bind fun r =>
      (if isLineEnd r.2.head then .ok (l', r.2.passBreak)
        else .error ⟨c.mark, .directiveEnd⟩ : Except Fault (Lexeme × Cursor))) = .ok (l, c') →
        Passes d c' := by
    intro l' d h
    obtain ⟨⟨found, e⟩, he, h⟩ := exists_of_bind_ok h
    dsimp only at h
    split at h
    · cases h
      exact (passes_passInline he).trans (passes_passBreak e)
    · cases h
  obtain ⟨⟨name, d⟩, hd, h⟩ := exists_of_bind_ok h
  have hname : Passes c d := (passes_one hhead).trans (passes_directiveName hd)
  dsimp only at h
  split at h
  · obtain ⟨⟨l', e⟩, he, h⟩ := exists_of_bind_ok h
    exact (hname.trans (passes_versionDirective he)).trans (hend h)
  · split at h
    · obtain ⟨⟨l', e⟩, he, h⟩ := exists_of_bind_ok h
      exact (hname.trans (passes_tagDirective he)).trans (hend h)
    · exact (hname.trans (passes_passLine d)).trans (hend h)

end Cursor

end YamlDelta.Markup
