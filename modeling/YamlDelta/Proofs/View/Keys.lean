/-
Reading a key back.

A key is written on its line without quotes where that is the same, and in quotes otherwise.
With a value behind its colon the line is a text of its own, which should be read as a mapping
of one entry with that key.  This is so exactly for the legible keys whose line does not begin like
the marker of a document.

That others are not read back is seen from their first token, which is all that the first key can
come from: without quotes it cannot have the text of the key, in quotes it is not read at all, and
if it is too long it is no key.  A line that begins with a marker may still be read as a mapping,
since a key can hold a carriage return, but what comes after the marker is too short for the key.
-/
import YamlDelta.Proofs.Markup.FirstKey
import YamlDelta.Proofs.Markup.Room
import YamlDelta.Proofs.View.Blocks
import YamlDelta.Proofs.View.Readback
import YamlDelta.Proofs.View.Unquoted

namespace YamlDelta.Emitter

open Markup Markup.Scanner

variable {k : String}

/-- The line of a key with a value is read as one document, a mapping with this key and no other
entry. -/
def KeyReadsBack (k : String) : Prop :=
  ∃ s v p, Stream.ofText (keyLine .plain k ++ " 0") = .ok s ∧
    s.documents = [some (.mapping [(k, v)] p)]

theorem toList_keyLine (k : String) :
    (keyLine .plain k ++ " 0").toList = (keyText k).toList ++ [':', ' ', '0'] := by
  rw [keyLine, Palette.key, Palette.paint_plain, String.toList_append, String.toList_append,
    List.append_assoc]
  rfl

theorem keyText_of_unquoted (h : needsQuotes k = false) : keyText k = k :=
  if_neg (by rw [h]; exact Bool.false_ne_true)

theorem keyText_of_quoted (h : needsQuotes k = true) : keyText k = Text.quoted k :=
  if_pos h

/-- The tokens of an entry whose value is the digit. -/
theorem tokens_keyLine (hk : LegibleKey k)
    (hclear : (Cursor.ofText ((keyText k).toList ++ [':'])).isMarker = false) :
    (Scan.ofText ((keyText k).toList ++ [':', ' ', '0'])).tokens.map Token.lexeme =
      [.streamStart, .blockMappingStart, .key, keyLexeme k, .value, .scalar .plain "0", .blockEnd,
        .streamEnd] := by
  have hkey : Leads (standing [] false true 0 _ [.streamStart]) _ :=
    leads_key (r := [' ', '0']) hk.inline rfl hk.length_le (by decide) fun _ => by
      rw [isMarker_append (by decide) (by decide)]
      exact hclear
  rw [String.ofList_toList, Bool.and_false] at hkey
  have hdigit : Stops ['0'] := stops_cons (by decide) (by decide)
  have hvalue : Leads (atColon [] false (0 + (keyText k).toList.length) (':' :: ' ' :: ['0'])
      [.streamStart] (keyLexeme k) 0) _ :=
    leads_value hdigit (by decide) (Nat.zero_le _)
  have hlast : Leads (standing (opened 0 []) true false (0 + (keyText k).toList.length + 2) ['0']
      ([.streamStart] ++ (begins 0 [] .blockMappingStart ++ [.key, keyLexeme k, .value]))) _ :=
    leads_last (.word ⟨List.cons_ne_nil _ _, List.forall_mem_singleton.mpr rfl, by decide⟩)
      ⟨by decide, by decide⟩
      (show (0 : Int) < (0 + (keyText k).toList.length + 2 : Nat) by omega) (opened_ne_nil _ _)
  have hway : Way _ _ := .head hkey (.head hvalue (.single hlast))
  obtain ⟨ch, x, htext, hgap, hcomment, -⟩ := hk.inline.head_cases
  have hstops : Stops ((keyText k).toList ++ [':', ' ', '0']) := by
    rw [htext]
    exact stops_cons hgap hcomment
  exact (tokens_of_way hstops hway (by simp [opened, begins, level])).1

/-- A legible key is read back from its line, if that does not begin like the marker of a
document. -/
theorem keyReadsBack_of_legible (hk : LegibleKey k)
    (hclear : (Cursor.ofText ((keyText k).toList ++ [':'])).isMarker = false) : KeyReadsBack k := by
  obtain ⟨_, us, _, htokens, hus⟩ := exists_enclosed (l := [.blockMappingStart, .key, keyLexeme k,
    .value, .scalar .plain "0", .blockEnd]) (tokens_keyLine hk hclear)
  obtain ⟨m, vs, m', rfl, hvs⟩ := exists_enclosed (l := [.key, keyLexeme k, .value,
    .scalar .plain "0"]) hus
  obtain ⟨⟨m₁, _⟩, _, rfl, rfl, hvs₁⟩ := List.map_eq_cons_iff.mp hvs
  obtain ⟨⟨m₂, _⟩, _, rfl, rfl, hvs₂⟩ := List.map_eq_cons_iff.mp hvs₁
  obtain ⟨⟨m₃, _⟩, _, rfl, rfl, hvs₃⟩ := List.map_eq_cons_iff.mp hvs₂
  obtain ⟨⟨m₄, _⟩, _, rfl, rfl, hvs₄⟩ := List.map_eq_cons_iff.mp hvs₃
  obtain rfl := List.map_eq_nil_iff.mp hvs₄
  have hentry : YieldsEntries
      [⟨m₁, .key⟩, ⟨m₂, keyLexeme k⟩, ⟨m₃, .value⟩, ⟨m₄, .scalar .plain "0"⟩]
      [(.scalar k (keyStyle k) none false m₂, .scalar "0" .plain none false m₄)] :=
    .cons (yields_scalar m₄ .plain "0") .nil
  have hyields := yields_mapping hentry m m'
  have hstream := ofChars_of_yields hyields htokens rfl (Written.node_mapping rfl)
  rw [← toList_keyLine] at hstream
  exact ⟨_, _, _, hstream, rfl⟩

/-! ### Keys that are not read back -/

variable {v : Node} {p : Place}

theorem isGap_of_isWhitespace {ch : Char} (h : Text.isWhitespace ch = false) (hend : ch ≠ '\x00') :
    isGap ch = false := by
  rw [Bool.eq_false_iff]
  intro hgap
  simp only [isGap, isBlank, isLineEnd, isBreak, isEnd, Bool.or_eq_true, beq_iff_eq] at hgap
  rcases hgap with (rfl | rfl) | (rfl | rfl) | rfl
  · exact absurd h (by decide)
  · exact absurd h (by decide)
  · exact absurd h (by decide)
  · exact absurd h (by decide)
  · exact hend rfl

/-- What is not an indicator begins a scalar without quotes. -/
theorem plainStart_of_indicators {ch : Char} (h : indicators.contains ch = false) (x : List Char) :
    PlainStart ch x := by
  have hnot : ch ∉ indicators := by simpa using h
  refine ⟨fun hch => hnot ?_, fun hch => absurd ?_ hnot⟩
  · simp only [indicators, List.mem_cons, List.not_mem_nil, or_false] at hch ⊢
    tauto
  · simp only [indicators, List.mem_cons, List.not_mem_nil, or_false] at hch ⊢
    tauto

/-- A key without quotes that can be the text of a scalar without quotes is one. -/
theorem isPlain_of_sayable (hquotes : needsQuotes k = false) (h : Cursor.Sayable k.toList) :
    IsPlain k.toList := by
  obtain ⟨ch, hhead, hindicator, hspace⟩ := plain_key_head? hquotes
  obtain ⟨x, hk⟩ := List.head?_eq_some_iff.mp hhead
  unfold needsQuotes at hquotes
  simp only [Bool.or_eq_false_iff] at hquotes
  have hblank {ch : Char} (h : Text.isWhitespace ch = false) (hend : ch ≠ '\x00') :
      isBlank ch = false := isBlank_of_not_gap (isGap_of_isWhitespace h hend)
  refine ⟨by simp [hk], fun ch hch => ?_, ?_, fun ch hch => ?_, h.inner⟩
  · obtain ⟨hreturn, hend⟩ := h.no_end ch hch
    have hline : ch ≠ '\n' := by
      rintro rfl
      simp [hch] at hquotes
    simp [isLineEnd, isBreak, isEnd, hline, hreturn, hend]
  · rw [hhead]
    rintro _ ⟨⟩
    exact ⟨hblank hspace (h.no_end ch (by simp [hk])).2, plainStart_of_indicators hindicator _⟩
  · have hlast := hquotes.1.1.1.2
    rw [Option.mem_def.mp hch, Option.any_some, Bool.or_eq_false_iff, beq_eq_false_iff_ne] at hlast
    exact ⟨hblank hlast.2 (h.no_end ch (List.mem_of_mem_getLast? hch)).2, hlast.1⟩

/-- A key without quotes that is read back is legible. -/
theorem legibleKey_of_unquoted (hquotes : needsQuotes k = false)
    (hmarker : (Cursor.ofText (k.toList ++ [':', ' ', '0'])).isMarker = false)
    (h : Stream.ofChars (k.toList ++ [':', ' ', '0']) = .ok ⟨[some (.mapping [(k, v)] p)]⟩) :
    k.length ≤ 1024 ∧ IsPlain k.toList := by
  obtain ⟨ch, hhead, hindicator, hspace⟩ := plain_key_head? hquotes
  obtain ⟨x, hk⟩ := List.head?_eq_some_iff.mp hhead
  have hend : ch ≠ '\x00' := by
    rintro rfl
    rw [ofChars_of_end (by rw [hk]; rfl)] at h
    cases h
  have hgap := isGap_of_isWhitespace hspace hend
  have hstart := plainStart_of_indicators hindicator (x ++ [':', ' ', '0'])
  have hcs : k.toList ++ [':', ' ', '0'] = ch :: (x ++ [':', ' ', '0']) := by rw [hk]; rfl
  obtain ⟨t, s, ht, hs, hfirst⟩ := exists_dispatch_of_ofChars
    (hcs ▸ stops_cons hgap fun heq => hstart.no_indicator (by rw [heq]; decide)) h
  have hmarker' : t.cursor.isMarker = false := isMarker_of_rest ht.rest fun _ => hmarker
  rw [hcs] at ht hmarker
  rw [ht.toReached.dispatch hgap (fun heq => hstart.no_indicator (by rw [heq]; decide)) (by decide)
    fun _ => hmarker, fetchLexeme_plain hstart ht.rest ht.depth] at hs
  obtain ⟨text, c, hscalar, hmark, hread⟩ := mayBeKey_of_fetchPlain ht hs
  obtain ⟨rfl, -, hindex⟩ := hfirst .plain text hread
  have hplain := isPlain_of_sayable hquotes (Cursor.sayable_plainScalar hscalar)
  refine ⟨?_, hplain⟩
  obtain ⟨c', halong, -, hscalar'⟩ := Cursor.plainScalar_key hplain.words
    (by rw [hhead]; exact fun heq => hstart.no_indicator (by rw [Option.some.inj heq]; decide))
    (ht.rest.trans hcs.symm) rfl hmarker'
    (show level [] ≤ t.cursor.column by rw [ht.column]; decide)
  rw [hscalar, String.ofList_toList] at hscalar'
  cases hscalar'
  have hlength := halong.index
  have hmark' : s.mark.index = c.mark.index := congrArg Mark.index hmark
  have hstart' : t.mark.index = t.cursor.mark.index := rfl
  rw [← String.length_toList]
  omega

/-- A character that is written as a code point comes after others that are not. -/
theorem exists_codePoint {cs : List Char}
    (h : ¬∀ ch ∈ cs, Text.visiblePiece ch ≠ Text.codePoint ch) :
    ∃ xs ch ys, cs = xs ++ ch :: ys ∧ (∀ ch ∈ xs, Text.visiblePiece ch ≠ Text.codePoint ch) ∧
      Text.visiblePiece ch = Text.codePoint ch := by
  induction cs with
  | nil => exact absurd nofun h
  | cons ch cs ih =>
      by_cases hch : Text.visiblePiece ch = Text.codePoint ch
      · exact ⟨[], ch, cs, rfl, nofun, hch⟩
      · obtain ⟨xs, d, ys, rfl, hxs, hd⟩ :=
          ih fun hcs => h (List.forall_mem_cons.mpr ⟨hch, hcs⟩)
        exact ⟨ch :: xs, d, ys, rfl, List.forall_mem_cons.mpr ⟨hch, hxs⟩, hd⟩

/-- A key in quotes that is read back is legible. -/
theorem legibleKey_of_quoted
    (h : Stream.ofChars ((Text.quoted k).toList ++ [':', ' ', '0']) =
      .ok ⟨[some (.mapping [(k, v)] p)]⟩) :
    (Text.quoted k).length ≤ 1024 ∧
      ∀ ch ∈ k.toList, Text.visiblePiece ch ≠ Text.codePoint ch := by
  have hcs : (Text.quoted k).toList ++ [':', ' ', '0'] =
      '"' :: (k.toList.flatMap Text.visiblePiece ++ '"' :: ':' :: [' ', '0']) := by
    rw [Text.quoted, String.toList_ofList]
    simp
  rw [hcs] at h
  obtain ⟨t, s, ht, hs, hfirst⟩ := exists_dispatch_of_ofChars (stops_cons rfl (by decide)) h
  have hlexeme : t.fetchLexeme = t.fetchQuoted false := fetchLexeme_quoted ht.rest
  rw [ht.toReached.dispatch rfl (by decide) (by decide) fun _ =>
      isMarker_cons (by decide) (by decide), hlexeme] at hs
  obtain ⟨text, c, hscalar, hnotAfter, hread⟩ := mayBeKey_of_fetchQuoted ht hs
  by_cases hall : ∀ ch ∈ k.toList, Text.visiblePiece ch ≠ Text.codePoint ch
  · refine ⟨?_, hall⟩
    obtain ⟨-, -, hindex⟩ := hfirst _ text hread
    obtain ⟨c', halong, -, hscalar'⟩ := Cursor.quotedScalar_spelled (spelled_visiblePiece hall)
      ht.rest (.inr rfl) (show indentOf [] false ≤ t.cursor.column by rw [ht.column]; decide)
    rw [hscalar] at hscalar'
    cases hscalar'
    have hlength := halong.index
    have hlater := hnotAfter.2
    have hstart : t.mark.index = t.cursor.mark.index := rfl
    rw [← String.length_toList, Text.quoted, String.toList_ofList, List.length_append,
      List.length_cons, List.length_singleton]
    omega
  · obtain ⟨xs, ch, ys, hk, hxs, hch⟩ := exists_codePoint hall
    have hrest := ht.rest
    rw [hk, List.flatMap_append, List.flatMap_cons, hch, Text.codePoint] at hrest
    rw [Cursor.quotedScalar_codePoint (spelled_visiblePiece hxs) (hrest.trans (by simp; rfl))
      (show indentOf [] false ≤ t.cursor.column by rw [ht.column]; decide)] at hscalar
    cases hscalar

/-- The line of a key that is read back does not begin like the marker of a document. -/
theorem not_isMarker_of_readsBack
    (h : Stream.ofChars ((keyText k).toList ++ [':', ' ', '0']) =
      .ok ⟨[some (.mapping [(k, v)] p)]⟩) :
    (Cursor.ofText ((keyText k).toList ++ [':', ' ', '0'])).isMarker = false := by
  rw [Bool.eq_false_iff]
  intro hmarker
  cases hquotes : needsQuotes k with
  | false =>
      rw [keyText_of_unquoted hquotes] at h hmarker
      obtain ⟨ch, hhead, hindicator, -⟩ := plain_key_head? hquotes
      have hbracket : ∀ {ch'}, k.toList.head? = some ch' → indicators.contains ch' = false :=
        fun h => Option.some.inj (hhead.symm.trans h) ▸ hindicator
      rcases firstKey_cases (fun hempty => by rw [hempty] at hhead; cases hhead) h with
        ⟨t, ht, style, htext⟩ | hseq | hmap
      · -- the key is longer than all that comes after the marker
        have hlength := Scan.length_le_of_marker hmarker ht htext
        obtain ⟨x, hk⟩ := List.head?_eq_some_iff.mp hhead
        rw [List.length_append, ← String.length_toList, hk] at hlength
        simp only [List.length_cons, List.length_nil] at hlength
        omega
      · exact absurd (hbracket hseq) (by decide)
      · exact absurd (hbracket hmap) (by decide)
  | true =>
      rw [keyText_of_quoted hquotes, Text.quoted, String.toList_ofList, List.cons_append,
        List.cons_append, isMarker_cons (by decide) (by decide)] at hmarker
      cases hmarker

/-- **A key is read back from its line exactly if it is legible** and the line does not begin like
the marker of a document. -/
theorem key_reads_back_iff :
    KeyReadsBack k ↔
      LegibleKey k ∧ (Cursor.ofText ((keyText k).toList ++ [':'])).isMarker = false := by
  refine ⟨?_, fun ⟨hk, hclear⟩ => keyReadsBack_of_legible hk hclear⟩
  rintro ⟨⟨ds⟩, v, p, hstream, hds⟩
  obtain rfl : ds = [some (.mapping [(k, v)] p)] := hds
  rw [Stream.ofText, toList_keyLine] at hstream
  have hclear := not_isMarker_of_readsBack hstream
  rw [← isMarker_append (by decide) (by decide) _ [' ', '0']]
  refine ⟨?_, hclear⟩
  cases hquotes : needsQuotes k with
  | false =>
      have hkey := keyText_of_unquoted hquotes
      rw [hkey] at hstream hclear
      obtain ⟨hlength, hplain⟩ := legibleKey_of_unquoted hquotes hclear hstream
      exact ⟨hkey.symm ▸ hlength, fun _ => hplain, fun h => Bool.noConfusion (hquotes.symm.trans h)⟩
  | true =>
      have hkey := keyText_of_quoted hquotes
      rw [hkey] at hstream
      obtain ⟨hlength, hvisible⟩ := legibleKey_of_quoted hstream
      exact ⟨hkey.symm ▸ hlength, fun h => Bool.noConfusion (hquotes.symm.trans h),
        fun _ => hvisible⟩

/-- Quotes keep a key whole; a key without them may look like the end of a document. -/
theorem quoted_key_reads_back : KeyReadsBack "- \t\"#" ∧ ¬KeyReadsBack "... x" :=
  ⟨key_reads_back_iff.mpr (by decide +kernel),
    fun h => absurd (key_reads_back_iff.mp h).2 (by decide +kernel)⟩

/-- A key with a tab behind a colon is not quoted, and cannot be read. -/
theorem tab_ends_key :
    keyLine .plain "a:\tb" = "a:\tb:" ∧ ¬KeyReadsBack "a:\tb" := by
  refine ⟨by decide +kernel, ?_⟩
  rintro ⟨s, v, p, hs, -⟩
  have hfault : (Stream.ofText (keyLine .plain "a:\tb" ++ " 0")).isOk = false := by decide +kernel
  rw [hs] at hfault
  cases hfault

end YamlDelta.Emitter
