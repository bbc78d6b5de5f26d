/-
What is read back from its own text.

Most of what a document can hold is written in a way that says it again, but not all.  A text
without quotes must stay on one line and must not contain what would end it; the same holds
between single quotes, but for what ends it; between double quotes only NUL is in the way.  A
block of text must not begin with a space, as its header does not say how far it is indented.
A key is quoted when it needs to be, and then every character in it must have a short escape
or none.

`Legible` puts these conditions together for all scalars and keys of a tree, and `lexemes`
says which tokens its text will turn out to have.
-/
import YamlDelta.Proofs.Markup.Collections
import YamlDelta.Proofs.Node.Resolution
import YamlDelta.Proofs.View.Page

namespace YamlDelta

open Markup Markup.Scanner

namespace Emitter

open Lines

/-! ### Texts without quotes -/

/-- The second character neither ends a key with the first nor begins a comment. -/
def Adjoin (a b : Char) : Prop :=
  ¬(a = ':' ∧ isBlank b = true) ∧ ¬(isBlank a = true ∧ b = '#')

instance (a b : Char) : Decidable (Adjoin a b) :=
  inferInstanceAs (Decidable (_ ∧ _))

instance (ch : Char) (x : List Char) : Decidable (PlainStart ch x) :=
  decidable_of_iff (ch ∉ [',', '[', ']', '\x7b', '\x7d', '#', '&', '*', '!', '|', '>', '\'', '"',
      '%', '@', '\x60'] ∧ (ch ∈ ['-', '?', ':'] → isGap (x.headD '\x00') = false))
    ⟨fun h => ⟨h.1, h.2⟩, fun h => ⟨h.1, h.2⟩⟩

/-- The text is read as it is where a scalar is expected. -/
structure IsPlain (cs : List Char) : Prop where
  ne_nil : cs ≠ []
  one_line : ∀ ch ∈ cs, isLineEnd ch = false
  first : ∀ ch ∈ cs.head?, isBlank ch = false ∧ PlainStart ch cs.tail
  last : ∀ ch ∈ cs.getLast?, isBlank ch = false ∧ ch ≠ ':'
  inner : cs.IsChain Adjoin

instance (cs : List Char) : Decidable (IsPlain cs) :=
  decidable_of_iff (cs ≠ [] ∧ cs.all (!isLineEnd ·) = true ∧
      cs.head?.all (fun ch => !isBlank ch && PlainStart ch cs.tail) = true ∧
      cs.getLast?.all (fun ch => !isBlank ch && ch != ':') = true ∧ cs.IsChain Adjoin)
    ⟨fun ⟨hne, hline, hfirst, hlast, hinner⟩ =>
        ⟨hne, by simpa using hline, by simpa [Option.all_eq_true] using hfirst,
          by simpa [Option.all_eq_true] using hlast, hinner⟩,
      fun h => ⟨h.ne_nil, by simpa using h.one_line, by simpa [Option.all_eq_true] using h.first,
        by simpa [Option.all_eq_true] using h.last, h.inner⟩⟩

theorem IsPlain.exists_first {cs : List Char} (h : IsPlain cs) :
    ∃ ch x, cs = ch :: x ∧ isBlank ch = false ∧ PlainStart ch x := by
  obtain ⟨ch, x, rfl⟩ := List.exists_cons_of_ne_nil h.ne_nil
  exact ⟨ch, x, rfl, h.first ch rfl⟩

theorem words_cons {ch d : Char} {x : List Char} (h : Cursor.Words (d :: x))
    (hch : isGap ch = false) : Cursor.Words (ch :: d :: x) := by
  generalize hw : d :: x = w at h
  cases h with
  | word h =>
      refine .word ⟨List.cons_ne_nil _ _, List.forall_mem_cons.mpr ⟨hch, h.no_gap⟩, ?_⟩
      rw [← hw, List.getLast?_cons_cons, hw]
      exact h.no_colon
  | @cons w b t h hb hblank ht hcomment =>
      obtain ⟨e, w', rfl, he⟩ := h.exists_cons
      refine .cons (w := ch :: e :: w') ⟨List.cons_ne_nil _ _,
        List.forall_mem_cons.mpr ⟨hch, h.no_gap⟩, ?_⟩ hb hblank ht hcomment
      rw [List.getLast?_cons_cons]
      exact h.no_colon

theorem isGap_eq_false {ch : Char} (hline : isLineEnd ch = false) (hblank : isBlank ch = false) :
    isGap ch = false := by
  rw [isGap, hline, hblank]
  rfl

/-- A text without quotes is words behind blanks. -/
theorem exists_words {cs : List Char} (hne : cs ≠ []) (hline : ∀ ch ∈ cs, isLineEnd ch = false)
    (hlast : ∀ ch ∈ cs.getLast?, isBlank ch = false ∧ ch ≠ ':') (hinner : cs.IsChain Adjoin) :
    ∃ b t, cs = b ++ t ∧ (∀ ch ∈ b, isBlank ch = true) ∧ Cursor.Words t ∧
      (b ≠ [] → t.head? ≠ some '#') := by
  induction cs with
  | nil => exact absurd rfl hne
  | cons ch cs ih =>
      rw [List.forall_mem_cons] at hline
      cases cs with
      | nil =>
          obtain ⟨hblank, hcolon⟩ := hlast ch rfl
          refine ⟨[], [ch], rfl, nofun, .word ⟨List.cons_ne_nil _ _, ?_, ?_⟩, absurd rfl⟩
          · rw [List.forall_mem_singleton]
            exact isGap_eq_false hline.1 hblank
          · exact fun h => hcolon (Option.some.inj h)
      | cons d cs =>
          obtain ⟨hadjoin, hinner⟩ := List.isChain_cons_cons.mp hinner
          obtain ⟨b, t, hcs, hb, ht, hcomment⟩ := ih (List.cons_ne_nil _ _) hline.2 hlast hinner
          by_cases hblank : isBlank ch = true
          · refine ⟨ch :: b, t, by rw [hcs]; rfl, List.forall_mem_cons.mpr ⟨hblank, hb⟩, ht, ?_⟩
            intro _
            cases b with
            | nil =>
                -- the last blank stands in front of the first word
                rw [← show d :: cs = t from hcs]
                exact fun h => hadjoin.2 ⟨hblank, Option.some.inj h⟩
            | cons e b => exact hcomment (List.cons_ne_nil _ _)
          · have hgap := isGap_eq_false hline.1 (by simpa using hblank)
            cases b with
            | nil =>
                obtain rfl : d :: cs = t := hcs
                exact ⟨[], ch :: d :: cs, rfl, nofun, words_cons ht hgap, absurd rfl⟩
            | cons e b =>
                obtain ⟨rfl, -⟩ := List.cons.inj hcs
                refine ⟨[], [ch] ++ ((d :: b) ++ t), by rw [hcs]; rfl, nofun, ?_, absurd rfl⟩
                refine .cons ⟨List.cons_ne_nil _ _, ?_, ?_⟩ (List.cons_ne_nil _ _) hb ht
                  (hcomment (List.cons_ne_nil _ _))
                · rwa [List.forall_mem_singleton]
                · exact fun h => hadjoin.1 ⟨Option.some.inj h, hb d (List.mem_cons_self ..)⟩

theorem IsPlain.words {cs : List Char} (h : IsPlain cs) : Cursor.Words cs := by
  obtain ⟨ch, x, rfl, hblank, -⟩ := h.exists_first
  obtain ⟨b, t, hcs, hb, ht, -⟩ := exists_words (List.cons_ne_nil _ _) h.one_line h.last h.inner
  cases b with
  | nil => exact hcs ▸ ht
  | cons d b =>
      obtain ⟨rfl, -⟩ := List.cons.inj hcs
      rw [hb ch (List.mem_cons_self ..)] at hblank
      cases hblank

theorem IsPlain.inline {cs : List Char} (h : IsPlain cs) : Inline .plain cs cs := by
  obtain ⟨ch, x, rfl, -, hstart⟩ := h.exists_first
  exact .plain h.words hstart

/-! ### Keys -/

/-- The key is read back from the way it is written. -/
structure LegibleKey (key : String) : Prop where
  length_le : (keyText key).length ≤ 1024
  plain : needsQuotes key = false → IsPlain key.toList
  quoted : needsQuotes key = true → ∀ ch ∈ key.toList, Text.visiblePiece ch ≠ Text.codePoint ch

instance (key : String) : Decidable (LegibleKey key) :=
  decidable_of_iff ((keyText key).length ≤ 1024 ∧ (needsQuotes key = false → IsPlain key.toList) ∧
      (needsQuotes key = true →
        key.toList.all (fun ch => Text.visiblePiece ch != Text.codePoint ch) = true))
    ⟨fun ⟨hlength, hplain, hquoted⟩ => ⟨hlength, hplain, by simpa using hquoted⟩,
      fun h => ⟨h.length_le, h.plain, by simpa using h.quoted⟩⟩

/-- How a key is written. -/
def keyStyle (key : String) : Style :=
  if needsQuotes key then .doubleQuoted else .plain

theorem LegibleKey.inline {k : String} (h : LegibleKey k) :
    Inline (keyStyle k) k.toList (keyText k).toList := by
  unfold keyStyle keyText
  cases hquotes : needsQuotes k with
  | false => exact (h.plain hquotes).inline
  | true =>
      rw [if_pos rfl, if_pos rfl, Text.quoted, String.toList_ofList]
      exact .quoted (spelled_visiblePiece (h.quoted hquotes))

/-! ### Blocks of text -/

/-- The text can be a block: its lines end in line feeds, the first line with something in it does
not begin with a space, and it is more than an empty line. -/
structure IsBlockText (s : String) : Prop where
  plain_breaks : ∀ ch ∈ s.toList, ch ≠ '\r' ∧ ch ≠ '\x00'
  no_space : s.toList.find? (· != '\n') ≠ some ' '
  ne_break : s ≠ "\n"

instance (s : String) : Decidable (IsBlockText s) :=
  decidable_of_iff (s.toList.all (fun ch => ch != '\r' && ch != '\x00') = true ∧
      s.toList.find? (· != '\n') ≠ some ' ' ∧ s ≠ "\n")
    ⟨fun ⟨hbreaks, hspace, hne⟩ => ⟨by simpa using hbreaks, hspace, hne⟩,
      fun h => ⟨by simpa using h.plain_breaks, h.no_space, h.ne_break⟩⟩

theorem flatten_charLines (cs : List Char) : (charLines cs).flatten = cs.filter (· != '\n') := by
  unfold charLines
  induction cs with
  | nil => simp
  | cons c cs ih =>
      rw [List.splitOn_cons_eq_if_modifyHead]
      by_cases hc : c = '\n'
      · rw [hc, if_pos (by rfl), List.flatten_cons, ih]
        rfl
      · rw [if_neg (by simpa using hc), List.filter_cons_of_pos (by simpa using hc), ← ih]
        obtain ⟨w, ws, hws⟩ := List.exists_cons_of_ne_nil (List.splitOn_ne_nil '\n' cs)
        rw [hws]
        rfl

theorem unlines_charLines (cs : List Char) : unlines (charLines cs) = cs ++ ['\n'] := by
  unfold charLines
  induction cs with
  | nil => simp [unlines]
  | cons c cs ih =>
      rw [List.splitOn_cons_eq_if_modifyHead]
      by_cases hc : c = '\n'
      · rw [hc, if_pos (by rfl), unlines_cons, ih]
        rfl
      · rw [if_neg (by simpa using hc)]
        obtain ⟨w, ws, hws⟩ := List.exists_cons_of_ne_nil (List.splitOn_ne_nil '\n' cs)
        rw [hws, unlines_cons] at ih
        rw [hws, List.modifyHead_cons, unlines_cons, List.cons_append, ih]
        rfl

/-- A block of text is written under the header that keeps as many line breaks as it has. -/
theorem exists_blockParts (s : String) :
    ∃ chomping, (blockParts s).1.toList = '|' :: Cursor.chompingMark chomping ∧
      Cursor.chomped chomping (blockParts s).2.toList = s.toList ∧
      (chomping = .keep ∨ (blockParts s).2.toList.getLast? ≠ some '\n') ∧
      (chomping = .clip → s.toList = (blockParts s).2.toList ++ ['\n']) := by
  have hs : s.toList = s.toList.reverse.reverse := (List.reverse_reverse _).symm
  unfold blockParts
  split
  · rename_i cs heq
    rw [heq] at hs
    refine ⟨.keep, show "|+".toList = _ by decide, ?_, .inl rfl, nofun⟩
    rw [hs, String.toList_ofList]
    simp [Cursor.chomped]
  · rename_i cs hnot heq
    rw [heq, List.reverse_cons] at hs
    refine ⟨.clip, show "|".toList = _ by decide, ?_, .inr ?_, fun _ => ?_⟩
    · rw [hs, String.toList_ofList]
      rfl
    · rw [String.toList_ofList, List.getLast?_reverse]
      intro hlast
      obtain ⟨cs', rfl⟩ := List.head?_eq_some_iff.mp hlast
      exact hnot cs' rfl
    · rw [hs, String.toList_ofList]
  · rename_i hkeep hclip
    refine ⟨.strip, show "|-".toList = _ by decide, rfl, .inr ?_, nofun⟩
    intro hlast
    rw [hs, List.getLast?_reverse] at hlast
    obtain ⟨cs, hcs⟩ := List.head?_eq_some_iff.mp hlast
    exact hclip cs hcs

theorem IsBlockText.exists_sets {s : String} (h : IsBlockText s) :
    ∃ chomping, (blockParts s).1.toList = '|' :: Cursor.chompingMark chomping ∧
      Cursor.Sets chomping (charLines (blockParts s).2.toList) (blockParts s).2.toList ∧
      Cursor.chomped chomping (blockParts s).2.toList = s.toList ∧
      (chomping = .clip → (blockParts s).2.toList ≠ []) := by
  obtain ⟨chomping, hheader, htext, hlast, hclip⟩ := exists_blockParts s
  refine ⟨chomping, hheader, ⟨unlines_charLines _, ?_, ?_, hlast⟩, htext, ?_⟩
  · intro l hl ch hch
    have hne : ch ≠ '\n' := by
      rintro rfl
      exact Lines.newline_notMem_splitOn _ l hl hch
    have hmem : ch ∈ (blockParts s).2.toList := by
      have hflat : ch ∈ (charLines (blockParts s).2.toList).flatten :=
        List.mem_flatten.mpr ⟨l, hl, hch⟩
      rw [flatten_charLines] at hflat
      exact (List.mem_filter.mp hflat).1
    have hmem' : ch ∈ s.toList := by
      rw [← htext]
      cases chomping with
      | strip => exact hmem
      | clip | keep => exact List.mem_append_left _ hmem
    obtain ⟨hreturn, hend⟩ := h.plain_breaks ch hmem'
    simp [isLineEnd, isBreak, isEnd, hne, hreturn, hend]
  · rw [flatten_charLines, List.head?_filter]
    intro hfind
    refine h.no_space ?_
    rw [← htext]
    cases chomping with
    | strip => exact hfind
    | clip | keep => exact List.find?_append.trans (by rw [hfind]; rfl)
  · intro heq hnil
    have hs := hclip heq
    rw [hnil] at hs
    exact h.ne_break (String.toList_inj.mp hs)

/-! ### Scalars -/

/-- The scalar is read back from its text. -/
inductive LegibleScalar : Scalar → String → Prop
  | plain {text : String} (h : IsPlain text.toList) : LegibleScalar (.ofPlain text) text
  | single {s : String} (h : ∀ ch ∈ s.toList, isLineEnd ch = false) :
      LegibleScalar (.string s) (Text.singleQuoted s)
  | double {s : String} (h : ∀ ch ∈ s.toList, ch ≠ '\x00') :
      LegibleScalar (.string s) (Text.doubleQuoted s)
  | block {s text : String} (h : IsBlockText s) : LegibleScalar (.literal s) text

/-- The token of a scalar. -/
def scalarLexeme (v : Scalar) (text : String) : Lexeme :=
  match v, text.toList.head? with
  | .literal s, _ => .scalar .literal s
  | .string s, some '\'' => .scalar .singleQuoted s
  | .string s, some '"' => .scalar .doubleQuoted s
  | _, _ => .scalar .plain text

theorem scalarLexeme_quoted {single : Bool} {text : String} {cs : List Char}
    (h : text.toList = quoteMark single :: cs) (s : String) :
    scalarLexeme (.string s) text =
      .scalar (if single then .singleQuoted else .doubleQuoted) s := by
  unfold scalarLexeme
  rw [h]
  cases single <;> rfl

theorem ofPlain_ne_literal (text s : String) : Scalar.ofPlain text ≠ .literal s := by
  intro h
  rcases Scalar.ofPlain_cases text with hstring | hnone
  · cases h.symm.trans hstring
  · rw [h] at hnone
    cases hnone

/-- A quote is an indicator, so no text in quotes is a plain one. -/
theorem scalarLexeme_plain {text : String} (h : IsPlain text.toList) :
    scalarLexeme (.ofPlain text) text = .scalar .plain text := by
  obtain ⟨ch, x, htext, -, hstart⟩ := h.exists_first
  have hquote : ∀ q ∈ ['\'', '"'], text.toList.head? ≠ some q := by
    intro q hq heq
    rw [htext] at heq
    obtain rfl : ch = q := Option.some.inj heq
    rw [List.mem_pair] at hq
    rcases hq with rfl | rfl <;> exact hstart.no_indicator (by decide)
  unfold scalarLexeme
  split
  · rename_i hliteral
    exact absurd hliteral (ofPlain_ne_literal _ _)
  · rename_i hhead
    exact absurd hhead (hquote _ (by decide))
  · rename_i hhead
    exact absurd hhead (hquote _ (by decide))
  · rfl

theorem toList_singleQuoted (s : String) :
    (Text.singleQuoted s).toList =
      quoteMark true :: (s.toList.flatMap Text.singlePiece ++ [quoteMark true]) :=
  String.toList_ofList

theorem toList_doubleQuoted (s : String) :
    (Text.doubleQuoted s).toList =
      quoteMark false :: (s.toList.flatMap Text.doublePiece ++ [quoteMark false]) :=
  String.toList_ofList

/-- A scalar that is no block of text is written on one line. -/
theorem LegibleScalar.inline {v : Scalar} {text : String} (h : LegibleScalar v text)
    (hv : ∀ s, v ≠ .literal s) :
    ∃ style u, Inline style u text.toList ∧
      scalarLexeme v text = .scalar style (String.ofList u) := by
  cases h with
  | plain h =>
      refine ⟨.plain, text.toList, h.inline, ?_⟩
      rw [scalarLexeme_plain h, String.ofList_toList]
  | @single s h =>
      refine ⟨.singleQuoted, s.toList, ?_, ?_⟩
      · rw [toList_singleQuoted]
        exact .quoted (spelled_singlePiece h)
      · rw [scalarLexeme_quoted (toList_singleQuoted s), String.ofList_toList]
        rfl
  | @double s h =>
      refine ⟨.doubleQuoted, s.toList, ?_, ?_⟩
      · rw [toList_doubleQuoted]
        exact .quoted (spelled_doublePiece h)
      · rw [scalarLexeme_quoted (toList_doubleQuoted s), String.ofList_toList]
        rfl
  | block h => exact absurd rfl (hv _)

theorem LegibleScalar.isBlockText {s text : String} (h : LegibleScalar (.literal s) text) :
    IsBlockText s := by
  generalize hv : Scalar.literal s = v at h
  cases h with
  | plain h => exact absurd hv.symm (ofPlain_ne_literal _ _)
  | single h => cases hv
  | double h => cases hv
  | block h =>
      cases hv
      exact h

/-! ### Markers -/

theorem isMarkerOf_append {mark ch : Char} (h : ch ≠ mark) (p r : List Char) :
    (Cursor.ofText (p ++ ch :: r)).isMarkerOf mark =
      (Cursor.ofText (p ++ [ch])).isMarkerOf mark := by
  have hne : (ch == mark) = false := beq_eq_false_iff_ne.mpr h
  unfold Cursor.isMarkerOf Cursor.peek Cursor.ofText
  match p with
  | [] | [a] | [a, b] => simp [hne]
  | [a, b, c] => rfl
  | a :: b :: c :: d :: p => rfl

/-- Whether a text at the margin looks like the marker of a document is seen up to any character
that is not part of one. -/
theorem isMarker_append {ch : Char} (hhyphen : ch ≠ '-') (hdot : ch ≠ '.') (p r : List Char) :
    (Cursor.ofText (p ++ ch :: r)).isMarker = (Cursor.ofText (p ++ [ch])).isMarker := by
  rw [Cursor.isMarker, Cursor.isMarker, isMarkerOf_append hhyphen, isMarkerOf_append hdot]

/-! ### Nodes -/

/-- All keys and scalars in the tree are read back from the way they are written. -/
inductive Legible : Node → Prop
  | mapping {es : List (String × Node)} {p : Place} (hkeys : ∀ e ∈ es, LegibleKey e.1)
      (h : ∀ e ∈ es, Legible e.2) : Legible (.mapping es p)
  | sequence {is : List Node} {p : Place} (h : ∀ n ∈ is, Legible n) : Legible (.sequence is p)
  | scalar {v : Scalar} {p : Place} (h : LegibleScalar v p.text) : Legible (.scalar v p)

theorem legibleScalar_iff {v : Scalar} {text : String} :
    LegibleScalar v text ↔
      v = .ofPlain text ∧ IsPlain text.toList ∨
      (∃ s ∈ v.text?, v = .string s ∧ text = Text.singleQuoted s ∧
        s.toList.all (!isLineEnd ·) = true) ∨
      (∃ s ∈ v.text?, v = .string s ∧ text = Text.doubleQuoted s ∧
        s.toList.all (· != '\x00') = true) ∨
      ∃ s ∈ v.text?, v = .literal s ∧ IsBlockText s := by
  constructor
  · intro h
    cases h with
    | plain h => exact .inl ⟨rfl, h⟩
    | single h => exact .inr (.inl ⟨_, rfl, rfl, rfl, by simpa using h⟩)
    | double h => exact .inr (.inr (.inl ⟨_, rfl, rfl, rfl, by simpa using h⟩))
    | block h => exact .inr (.inr (.inr ⟨_, rfl, rfl, h⟩))
  · rintro (⟨rfl, h⟩ | ⟨s, -, rfl, rfl, h⟩ | ⟨s, -, rfl, rfl, h⟩ | ⟨s, -, rfl, h⟩)
    · exact .plain h
    · exact .single (by simpa using h)
    · exact .double (by simpa using h)
    · exact .block h

instance (v : Scalar) (text : String) : Decidable (LegibleScalar v text) :=
  decidable_of_iff _ legibleScalar_iff.symm

mutual
/-- Whether a node is legible. -/
def isLegible : Node → Bool
  | .mapping es _ => entriesLegible es
  | .sequence is _ => itemsLegible is
  | .scalar v p => decide (LegibleScalar v p.text)
def entriesLegible : List (String × Node) → Bool
  | [] => true
  | (k, n) :: es => decide (LegibleKey k) && (isLegible n && entriesLegible es)
def itemsLegible : List Node → Bool
  | [] => true
  | n :: is => isLegible n && itemsLegible is
end

theorem legible_of_isLegible {n : Node} (h : isLegible n = true) : Legible n := by
  induction n using Node.induct with
  | mapping es p ih =>
      have hall : ∀ e ∈ es, LegibleKey e.1 ∧ Legible e.2 := by
        rw [isLegible] at h
        induction es with
        | nil => nofun
        | cons e es ihes =>
            rw [List.forall_mem_cons] at ih ⊢
            simp only [entriesLegible, Bool.and_eq_true, decide_eq_true_eq] at h
            exact ⟨⟨h.1, ih.1 h.2.1⟩, ihes ih.2 h.2.2⟩
      exact .mapping (fun e he => (hall e he).1) fun e he => (hall e he).2
  | sequence is p ih =>
      refine .sequence ?_
      rw [isLegible] at h
      induction is with
      | nil => nofun
      | cons n is ihis =>
          rw [List.forall_mem_cons] at ih ⊢
          rw [itemsLegible, Bool.and_eq_true] at h
          exact ⟨ih.1 h.1, ihis ih.2 h.2⟩
  | scalar v p => exact .scalar (of_decide_eq_true h)

/-- At the margin the first line of the node does not look like the marker of a document, and
neither does the key of any entry. -/
def ClearOfMarkers : Node → Prop
  | .mapping es _ =>
    ∀ e ∈ es, (Cursor.ofText ((keyText e.1).toList ++ [':'])).isMarker = false
  | .sequence _ _ => True
  | .scalar v p => v.kind = .literal ∨ (Cursor.ofText (p.text.toList ++ ['\n'])).isMarker = false

instance : (n : Node) → Decidable (ClearOfMarkers n)
  | .mapping es _ => inferInstanceAs (Decidable (∀ e ∈ es, _ = false))
  | .sequence _ _ => .isTrue trivial
  | .scalar _ _ => inferInstanceAs (Decidable (_ ∨ _))

variable {n : Node}

/-- The text of a node begins with a token. -/
theorem Legible.exists_first (h : Legible n) (column : Nat) (after : List Char) :
    ∃ ch x, nodeText column n after = ch :: x ∧ isGap ch = false ∧ ch ≠ '#' := by
  cases h with
  | @mapping es p hkeys h =>
      cases es with
      | nil => exact ⟨_, _, rfl, rfl, by decide⟩
      | cons e es =>
          obtain ⟨ch, x, hkey, hgap, hcomment, -⟩ :=
            (hkeys e (List.mem_cons_self ..)).inline.head_cases
          have htext := placed_entry column e.1 e.2 (entriesLines .plain es) after
          rw [hkey] at htext
          exact ⟨ch, _, (nodeText_entries (List.cons_ne_nil _ _) p).trans htext, hgap, hcomment⟩
  | @sequence is p h =>
      cases is with
      | nil => exact ⟨_, _, rfl, rfl, by decide⟩
      | cons n is =>
          exact ⟨'-', _, (nodeText_items (List.cons_ne_nil _ _) p).trans
            (placed_item column n (itemsLines .plain is) after), rfl, by decide⟩
  | @scalar v p h =>
      by_cases hliteral : ∃ s, v = .literal s
      · obtain ⟨s, rfl⟩ := hliteral
        obtain ⟨chomping, hheader, -⟩ := exists_blockParts s
        have htext := nodeText_literal column s p after
        rw [hheader] at htext
        exact ⟨'|', _, htext, rfl, by decide⟩
      · have hv : ∀ s, v ≠ .literal s := fun s hs => hliteral ⟨s, hs⟩
        obtain ⟨style, u, hinline, -⟩ := h.inline hv
        obtain ⟨ch, x, htext, hgap, hcomment, -⟩ := hinline.head_cases
        have hnode := nodeText_scalar hv column p after
        rw [htext] at hnode
        exact ⟨ch, _, hnode, hgap, hcomment⟩

theorem Legible.stops (h : Legible n) (column : Nat) (after : List Char) :
    Stops (nodeText column n after) := by
  obtain ⟨ch, x, htext, hgap, hcomment⟩ := h.exists_first column after
  rw [htext]
  exact stops_cons hgap hcomment

end Emitter

end YamlDelta
