/-
What a scalar without quotes can say.

However a scalar without quotes is written, over one line or several, some texts cannot come out of
it: none with a carriage return or a NUL in it, for these end lines and the text, and none with a
colon before a blank or a `#` after one, for these end the scalar.  So a text with any of them has
to be quoted, which a line feed does not show, as empty lines come out as line feeds.
-/
import Mathlib.Data.List.Chain
import YamlDelta.Proofs.View.Legible

namespace YamlDelta.Markup.Cursor

open Emitter

/-- A text that a scalar without quotes can have. -/
structure Sayable (t : List Char) : Prop where
  no_end : ∀ ch ∈ t, ch ≠ '\r' ∧ ch ≠ '\x00'
  inner : t.IsChain Adjoin

variable {a b ch : Char} {t w white acc acc' : List Char} {c c' : Cursor} {ctx : PlainContext}
  {s s' : Spacing} {fuel : Nat}

theorem adjoin_of_left (hblank : isBlank a = false) (hcolon : a ≠ ':') : Adjoin a b :=
  ⟨fun h => hcolon h.1, fun h => (Bool.eq_false_iff.mp hblank h.1).elim⟩

theorem adjoin_of_right (hcolon : a ≠ ':') (hcomment : b ≠ '#') : Adjoin a b :=
  ⟨fun h => hcolon h.1, fun h => hcomment h.2⟩

/-! ### Words and white space -/

/-- What a plain word is made of, and that it leaves a colon in front of a gap. -/
theorem exists_plainWord (cs : List Char) : ∃ r, cs = plainWord false cs ++ r ∧
    (∀ ch ∈ plainWord false cs, isGap ch = false) ∧
    ((plainWord false cs).getLast? = some ':' → isGap (r.headD '\x00') = false) := by
  induction cs with
  | nil => exact ⟨[], rfl, List.forall_mem_nil _, fun h => by cases h⟩
  | cons ch cs ih =>
      rw [plainWord]
      split
      · rename_i hplain
        simp only [isPlain, endsKey, Bool.false_and, Bool.or_false, Bool.not_false, Bool.and_true,
          Bool.and_eq_true, Bool.not_eq_true', Bool.and_eq_false_iff, beq_eq_false_iff_ne] at hplain
        obtain ⟨r, hr, hgap, hcolon⟩ := ih
        refine ⟨r, by rw [List.cons_append, ← hr], List.forall_mem_cons.mpr ⟨hplain.1, hgap⟩, ?_⟩
        cases hword : plainWord false cs with
        | nil =>
            rw [hword, List.nil_append] at hr
            intro heq
            rw [← hr]
            exact hplain.2.resolve_left fun hne => hne (Option.some.inj heq)
        | cons d w =>
            rw [hword] at hcolon
            rwa [List.getLast?_cons_cons]
      · exact ⟨ch :: cs, rfl, List.forall_mem_nil _, fun h => by cases h⟩

theorem ne_end_of_not_gap (h : isGap ch = false) : ch ≠ '\r' ∧ ch ≠ '\x00' := by
  refine ⟨?_, ?_⟩
  all_goals
    rintro rfl
    cases h

theorem sayable_word (h : ∀ ch ∈ w, isGap ch = false) : Sayable w := by
  refine ⟨fun ch hch => ne_end_of_not_gap (h ch hch), ?_⟩
  refine List.Pairwise.isChain (List.pairwise_of_forall_mem_list fun a ha b hb => ?_)
  have hblank : ∀ ch ∈ w, isBlank ch = false := fun ch hch => isBlank_of_not_gap (h ch hch)
  exact ⟨fun h => Bool.eq_false_iff.mp (hblank b hb) h.2,
    fun h => Bool.eq_false_iff.mp (hblank a ha) h.1⟩

/-- White space as it comes out. -/
def IsWhite (white : List Char) : Prop :=
  ∀ ch ∈ white, isBlank ch = true ∨ ch = '\n'

theorem IsWhite.ne (h : IsWhite white) (hch : ch ∈ white) :
    (ch ≠ '\r' ∧ ch ≠ '\x00') ∧ ch ≠ ':' ∧ ch ≠ '#' := by
  rcases h ch hch with hblank | rfl
  · simp only [isBlank, Bool.or_eq_true, beq_iff_eq] at hblank
    rcases hblank with rfl | rfl
    all_goals decide
  · decide

theorem isWhite_folded (s : Spacing) : IsWhite s.folded := by
  intro ch hch
  unfold Spacing.folded at hch
  split at hch
  · rw [List.mem_singleton.mp hch]
    exact .inl rfl
  · exact .inr (List.eq_of_mem_replicate hch)

theorem sayable_white (h : IsWhite white) : Sayable white :=
  ⟨fun _ hch => (h.ne hch).1, List.Pairwise.isChain
    (List.pairwise_of_forall_mem_list fun _ ha _ hb =>
      adjoin_of_right (h.ne ha).2.1 (h.ne hb).2.2)⟩

/-- A text with a word and white space in front of that. -/
theorem Sayable.append_word (ht : Sayable t)
    (hlast : ∀ a ∈ t.getLast?, isBlank a = false ∧ a ≠ ':') (hwhite : IsWhite white)
    (hw : ∀ ch ∈ w, isGap ch = false) (hcomment : w.head? ≠ some '#') :
    Sayable (t ++ (white ++ w)) := by
  have hword := sayable_word hw
  have hspace := sayable_white hwhite
  refine ⟨fun ch hch => ?_, ?_⟩
  · rcases List.mem_append.mp hch with hch | hch
    · exact ht.no_end ch hch
    · exact (List.mem_append.mp hch).elim (hspace.no_end ch) (hword.no_end ch)
  · refine List.isChain_append.mpr ⟨ht.inner, List.isChain_append.mpr
      ⟨hspace.inner, hword.inner, fun a ha b hb => ?_⟩, fun a ha b hb => ?_⟩
    · refine adjoin_of_right (hwhite.ne (List.mem_of_mem_getLast? ha)).2.1 ?_
      rintro rfl
      exact hcomment hb
    · exact adjoin_of_left (hlast a ha).1 (hlast a ha).2

/-! ### Plain scalars -/

/-- Between words on one line blanks come out. -/
theorem blanks_plainSpacing (h : plainSpacing ctx fuel s c = .ok (s', c'))
    (hs : ∀ ch ∈ s.blanks, isBlank ch = true) : ∀ ch ∈ s'.blanks, isBlank ch = true := by
  induction fuel generalizing s c with
  | zero =>
      cases h
      exact hs
  | succ fuel ih =>
      rw [plainSpacing] at h
      dsimp only at h
      split at h
      · rename_i hblank
        split at h
        · exact ih h (List.forall_mem_cons.mpr ⟨hblank, hs⟩)
        · split at h
          · obtain ⟨⟨found, d⟩, -, h⟩ := exists_of_bind_ok h
            dsimp only at h
            split at h
            · exact ih h hs
            · cases h
          · exact ih h hs
      · split at h
        · refine ih h ?_
          unfold Spacing.addBreak
          split
          · exact hs
          · exact List.forall_mem_nil _
        · cases h
          exact hs

/-- After a word the scalar has ended, or goes on behind white space. -/
theorem afterWord_cases (h : afterWord ctx fuel acc s c = .ok (acc', c')) :
    acc' = acc ∨ isGap c.head = true ∧ ∃ n s₁ c₁, plainSpacing ctx n s c = .ok (s₁, c₁) ∧
      plainBody ctx fuel acc s₁ c₁ = .ok (acc', c') := by
  unfold afterWord at h
  split at h
  · rename_i hgap
    have hgap' : isGap c.head = true := by
      rw [isGap, isLineEnd]
      rcases Bool.or_eq_true_iff.mp hgap with h | h <;> simp [h]
    obtain ⟨⟨s₁, c₁⟩, hspacing, h⟩ := exists_of_bind_ok h
    dsimp only at h
    split at h
    · cases h
      exact .inl rfl
    · exact .inr ⟨hgap', _, s₁, c₁, hspacing, h⟩
  · cases h
    exact .inl rfl

/-- The scalar has ended, or there is a word, perhaps an empty one. -/
theorem plainBody_cases (hflow : ctx.inFlow = false)
    (h : plainBody ctx (fuel + 1) acc s c = .ok (acc', c')) :
    acc' = acc ∨ afterWord ctx fuel acc s (c.look 4) = .ok (acc', c') ∨
      ∃ w c₁, w ≠ [] ∧ (∀ ch ∈ w, isGap ch = false) ∧ w.head? ≠ some '#' ∧
        (w.getLast? = some ':' → isGap c₁.head = false) ∧
        afterWord ctx fuel (w.reverse ++ ((if c.atMargin then s.folded else s.blanks) ++ acc)) .none
          c₁ = .ok (acc', c') := by
  obtain ⟨r, hr, hgap, hcolon⟩ := exists_plainWord c.rest
  rw [plainBody] at h
  dsimp only at h
  split at h
  · cases h
    exact .inl rfl
  · rename_i hstart
    have hword : plainWord ctx.inFlow (c.look 4).rest = plainWord false c.rest := by
      rw [hflow]
      rfl
    rw [if_neg (by rw [hflow]; exact Bool.false_ne_true), hword] at h
    cases hw : plainWord false c.rest with
    | nil =>
        rw [hw] at h
        exact .inr (.inl h)
    | cons d w =>
        rw [hw] at h hr hgap hcolon
        refine .inr (.inr ⟨d :: w, ((c.look 4).advance (d :: w).length).look 2,
          List.cons_ne_nil _ _, hgap, ?_, ?_, h⟩)
        · intro heq
          cases heq
          have hhead : (c.look 4).head = '#' := head_of_rest (c := c.look 4) hr
          rw [hhead, beq_self_eq_true, Bool.or_true] at hstart
          exact hstart rfl
        · have hrest : (((c.look 4).advance (d :: w).length).look 2).head = r.headD '\x00' := by
            rw [head_eq_headD]
            show (c.rest.drop (d :: w).length).headD '\x00' = _
            rw [hr, List.drop_left]
          rwa [hrest]

/-- What has been read of a scalar, with white space after it that comes before the next word. -/
structure Reads (acc : List Char) (s : Spacing) : Prop where
  sayable : Sayable acc.reverse
  last : ∀ a ∈ acc.head?, isBlank a = false ∧ a ≠ ':'
  blanks : ∀ ch ∈ s.blanks, isBlank ch = true

/-- A word is read, with the white space in front of it. -/
theorem Reads.append_word (h : Reads acc s) (hw : ∀ ch ∈ w, isGap ch = false)
    (hcomment : w.head? ≠ some '#') (atMargin : Bool) :
    Sayable (w.reverse ++ ((if atMargin then s.folded else s.blanks) ++ acc)).reverse := by
  have hwhite : IsWhite (if atMargin then s.folded else s.blanks).reverse := by
    intro ch hch
    rw [List.mem_reverse] at hch
    split at hch
    · exact isWhite_folded s ch hch
    · exact .inl (h.blanks ch hch)
  rw [List.reverse_append, List.reverse_append, List.reverse_reverse, List.append_assoc]
  refine h.sayable.append_word ?_ hwhite hw hcomment
  rw [List.getLast?_reverse]
  exact h.last

theorem sayable_plainBody (hflow : ctx.inFlow = false)
    (h : plainBody ctx fuel acc s c = .ok (acc', c')) (hacc : Reads acc s) :
    Sayable acc'.reverse := by
  induction fuel generalizing acc s c with
  | zero =>
      cases h
      exact hacc.sayable
  | succ fuel ih =>
      rcases plainBody_cases hflow h with rfl | h | ⟨w, c₁, hne, hgap, hcomment, hcolon, h⟩
      · exact hacc.sayable
      · rcases afterWord_cases h with rfl | ⟨-, n, s₁, c₁, hspacing, h⟩
        · exact hacc.sayable
        · exact ih h ⟨hacc.sayable, hacc.last, blanks_plainSpacing hspacing hacc.blanks⟩
      · have hsayable := hacc.append_word hgap hcomment c.atMargin
        rcases afterWord_cases h with rfl | ⟨hend, n, s₁, c₂, hspacing, h⟩
        · exact hsayable
        · refine ih h ⟨hsayable, fun a ha => ?_, blanks_plainSpacing hspacing nofun⟩
          have hlast : w.getLast? = some a := by
            obtain ⟨b, hb⟩ := Option.ne_none_iff_exists'.mp (mt List.getLast?_eq_none_iff.mp hne)
            rw [List.head?_append, List.head?_reverse, hb] at ha
            rw [hb]
            exact ha
          refine ⟨isBlank_of_not_gap (hgap a (List.mem_of_getLast? hlast)), ?_⟩
          rintro rfl
          exact Bool.false_ne_true ((hcolon hlast).symm.trans hend)

/-- **A scalar without quotes says nothing that would end it.** -/
theorem sayable_plainScalar {indent : Int} {text : String}
    (h : c.plainScalar false indent = .ok (text, c')) : Sayable text.toList := by
  unfold plainScalar at h
  simp only [Bool.false_and, Bool.false_eq_true, if_false] at h
  obtain ⟨⟨acc, d⟩, hbody, h⟩ := exists_of_bind_ok h
  cases h
  rw [String.toList_ofList]
  exact sayable_plainBody rfl hbody ⟨⟨nofun, .nil⟩, nofun, nofun⟩

end YamlDelta.Markup.Cursor
