/-
Positions count line terminators.

A line terminator is a line feed on its own, a carriage return and a line feed, or a carriage
return on its own.  The table of line starts is built in one pass with a look ahead of one
character; it turns out to hold 0 and the offsets at which terminators end, in order.  So the
starts up to an offset can be found by bisection, there is always one, and the last of them
says how far into its line the offset is.

From one offset to the next either the line stays and the column grows, or the line grows.
Positions are therefore ordered like the offsets they belong to.
-/
import Mathlib.Data.Finset.Card
import Mathlib.Data.List.Pairwise
import Mathlib.Data.Nat.Find
import Mathlib.Data.Prod.Lex
import YamlDelta.Markup.Document

namespace YamlDelta.Text

/-! ### Line terminators -/

/-- A line terminator, by the offsets of its first character and of what follows it. -/
inductive Terminator (cs : List Char) : Nat → Nat → Prop
  | feed {i : Nat} (h : cs[i]? = some '\n') (hbefore : ∀ j, i = j + 1 → cs[j]? ≠ some '\r') :
      Terminator cs i (i + 1)
  | pair {i : Nat} (h : cs[i]? = some '\r') (hafter : cs[i + 1]? = some '\n') :
      Terminator cs i (i + 2)
  | carriage {i : Nat} (h : cs[i]? = some '\r') (hafter : cs[i + 1]? ≠ some '\n') :
      Terminator cs i (i + 1)

/-- A line terminator ends at the offset. -/
def EndsLine (cs : List Char) (e : Nat) : Prop :=
  ∃ i, Terminator cs i e

variable {cs : List Char}

/-- A line ends behind every line feed, and behind a carriage return that none follows. -/
theorem endsLine_iff {e : Nat} :
    EndsLine cs e ↔
      ∃ i, e = i + 1 ∧ (cs[i]? = some '\n' ∨ cs[i]? = some '\r' ∧ cs[i + 1]? ≠ some '\n') := by
  constructor
  · rintro ⟨i, h⟩
    cases h with
    | feed h _ => exact ⟨i, rfl, .inl h⟩
    | pair _ hafter => exact ⟨i + 1, rfl, .inl hafter⟩
    | carriage h hafter => exact ⟨i, rfl, .inr ⟨h, hafter⟩⟩
  · rintro ⟨i, rfl, h | ⟨h, hafter⟩⟩
    · cases i with
      | zero => exact ⟨0, .feed h nofun⟩
      | succ j =>
          by_cases hbefore : cs[j]? = some '\r'
          · exact ⟨j, .pair hbefore h⟩
          · refine ⟨j + 1, .feed h fun k hk => ?_⟩
            rwa [← Nat.succ.inj hk]
    · exact ⟨i, .carriage h hafter⟩

instance (cs : List Char) : DecidablePred (EndsLine cs) := fun e =>
  decidable_of_iff
    (e ≠ 0 ∧ (cs[e - 1]? = some '\n' ∨ cs[e - 1]? = some '\r' ∧ cs[e]? ≠ some '\n'))
    (by
      rw [endsLine_iff]
      cases e with
      | zero => simp
      | succ i => simp)

theorem endsLine_cons {c : Char} {e : Nat} :
    EndsLine (c :: cs) (e + 1) ↔
      e = 0 ∧ (c = '\n' ∨ c = '\r' ∧ cs[0]? ≠ some '\n') ∨ EndsLine cs e := by
  rw [endsLine_iff, endsLine_iff]
  cases e with
  | zero => simp
  | succ i => simp

/-- No line ends before the text. -/
theorem not_endsLine_zero : ¬EndsLine cs 0 := by
  rw [endsLine_iff]
  rintro ⟨i, hi, -⟩
  cases hi

/-! ### The table of line starts -/

/-- The table, one character at a time. -/
theorem lineEnds_cons (k : Nat) (c : Char) (cs : List Char) :
    lineEnds k (c :: cs) =
      if c = '\n' ∨ c = '\r' ∧ cs[0]? ≠ some '\n' then (k + 1) :: lineEnds (k + 1) cs
      else lineEnds (k + 1) cs := by
  by_cases hfeed : c = '\n'
  · subst hfeed
    rw [if_pos (.inl rfl), lineEnds]
  · by_cases hreturn : c = '\r'
    · subst hreturn
      by_cases hpair : cs[0]? = some '\n'
      · obtain ⟨cs', rfl⟩ := List.head?_eq_some_iff.mp (List.head?_eq_getElem? ▸ hpair)
        rw [if_neg (by simp), lineEnds, lineEnds]
      · rw [if_pos (.inr ⟨rfl, hpair⟩), lineEnds]
        rintro cs' rfl
        exact hpair rfl
    · rw [if_neg (by simp [hfeed, hreturn]), lineEnds]
      · exact hfeed
      · exact fun _ h _ => hreturn h
      · exact hreturn

/-- The table holds the offsets at which terminators end. -/
theorem mem_lineEnds_iff {k e : Nat} : e ∈ lineEnds k cs ↔ ∃ d, e = k + d ∧ EndsLine cs d := by
  induction cs generalizing k with
  | nil => simp [lineEnds, endsLine_iff]
  | cons c cs ih =>
      have hsplit : (∃ d, e = k + d ∧ EndsLine (c :: cs) d) ↔
          ∃ d, e = k + 1 + d ∧ EndsLine (c :: cs) (d + 1) := by
        constructor
        · rintro ⟨d, rfl, hd⟩
          cases d with
          | zero => exact absurd hd not_endsLine_zero
          | succ d => exact ⟨d, by omega, hd⟩
        · rintro ⟨d, rfl, hd⟩
          exact ⟨d + 1, by omega, hd⟩
      rw [hsplit, lineEnds_cons]
      simp only [endsLine_cons]
      split
      · rename_i hends
        rw [List.mem_cons, ih]
        constructor
        · rintro (rfl | ⟨d, rfl, hd⟩)
          · exact ⟨0, rfl, .inl ⟨rfl, hends⟩⟩
          · exact ⟨d, rfl, .inr hd⟩
        · rintro ⟨d, rfl, ⟨rfl, -⟩ | hd⟩
          · exact .inl rfl
          · exact .inr ⟨d, rfl, hd⟩
      · rename_i hends
        rw [ih]
        exact exists_congr fun d => and_congr_right fun _ =>
          ⟨.inr, fun h => h.resolve_left fun h0 => hends h0.2⟩

/-- The line starts come in order. -/
theorem pairwise_lineStarts (cs : List Char) : (lineStarts cs).Pairwise (· < ·) := by
  have hends : ∀ k, (lineEnds k cs).Pairwise (· < ·) := by
    intro k
    induction cs generalizing k with
    | nil => exact .nil
    | cons c cs ih =>
        rw [lineEnds_cons]
        split
        · exact List.pairwise_cons.mpr ⟨lt_of_mem_lineEnds cs (k + 1), ih (k + 1)⟩
        · exact ih (k + 1)
  exact List.pairwise_cons.mpr ⟨lt_of_mem_lineEnds cs 0, hends 0⟩

/-! ### Finding a position -/

/-- The starts up to an offset are passed, and the last of them is where its line starts. -/
theorem locateFrom_eq (line start : Nat) (ss : List Nat) (i : Nat) :
    locateFrom line start ss i =
      ⟨line + (ss.takeWhile (· ≤ i)).length,
        i - (start :: ss.takeWhile (· ≤ i)).getLast (List.cons_ne_nil _ _) + 1⟩ := by
  induction ss generalizing line start with
  | nil => rfl
  | cons s ss ih =>
      rw [locateFrom]
      split
      · rename_i hs
        rw [ih, List.takeWhile_cons_of_pos (by simpa using hs), List.length_cons,
          List.getLast_cons_cons, Nat.add_assoc, Nat.add_comm 1]
      · rename_i hs
        rw [List.takeWhile_cons_of_neg (by simpa using hs)]
        rfl

/-- Of numbers in order, the first ones are up to a bound and the others beyond it. -/
theorem takeWhile_le_eq_filter {l : List Nat} (h : l.Pairwise (· < ·)) (i : Nat) :
    l.takeWhile (· ≤ i) = l.filter (· ≤ i) := by
  induction h with
  | nil => rfl
  | @cons e l hlt h ih =>
      by_cases he : e ≤ i
      · rw [List.takeWhile_cons_of_pos (by simpa using he),
          List.filter_cons_of_pos (by simpa using he), ih]
      · rw [List.takeWhile_cons_of_neg (by simpa using he), eq_comm, List.filter_eq_nil_iff]
        refine List.forall_mem_cons.mpr ⟨by simpa using he, fun d hd => ?_⟩
        have := hlt d hd
        simp only [decide_eq_true_eq]
        omega

/-- The offsets up to a given one at which a line ends. -/
def endsUpTo (cs : List Char) (i : Nat) : Finset Nat :=
  (Finset.range (i + 1)).filter (EndsLine cs)

theorem mem_endsUpTo {i e : Nat} : e ∈ endsUpTo cs i ↔ e ≤ i ∧ EndsLine cs e := by
  rw [endsUpTo, Finset.mem_filter, Finset.mem_range, Nat.lt_succ_iff]

/-- The start of the line that an offset is on: the greatest end up to it, or 0. -/
def lineStart (cs : List Char) (i : Nat) : Nat :=
  Nat.findGreatest (EndsLine cs) i

theorem lineStart_le (cs : List Char) (i : Nat) : lineStart cs i ≤ i :=
  Nat.findGreatest_le i

theorem le_lineStart {i e : Nat} (h : e ∈ endsUpTo cs i) : e ≤ lineStart cs i :=
  Nat.le_findGreatest (mem_endsUpTo.mp h).1 (mem_endsUpTo.mp h).2

theorem lineStart_mem {i : Nat} (h : lineStart cs i ≠ 0) : lineStart cs i ∈ endsUpTo cs i :=
  mem_endsUpTo.mpr ⟨lineStart_le cs i, Nat.findGreatest_of_ne_zero rfl h⟩

theorem lineStart_mono {i j : Nat} (h : endsUpTo cs i ⊆ endsUpTo cs j) :
    lineStart cs i ≤ lineStart cs j := by
  by_cases hzero : lineStart cs i = 0
  · rw [hzero]
    exact Nat.zero_le _
  · exact le_lineStart (h (lineStart_mem hzero))

/-- The starts up to an offset are 0 and the ends up to it. -/
theorem takeWhile_lineStarts (cs : List Char) (i : Nat) :
    ∃ ends : List Nat, (lineStarts cs).takeWhile (· ≤ i) = 0 :: ends ∧
      (lineEnds 0 cs).takeWhile (· ≤ i) = ends ∧ ends.length = (endsUpTo cs i).card ∧
      (0 :: ends).getLast (List.cons_ne_nil _ _) = lineStart cs i := by
  have hsorted := pairwise_lineStarts cs
  have hends := (List.pairwise_cons.mp hsorted).2
  have hmem : ∀ e, e ∈ (lineEnds 0 cs).filter (· ≤ i) ↔ e ∈ endsUpTo cs i := by
    intro e
    rw [List.mem_filter, mem_lineEnds_iff, mem_endsUpTo, decide_eq_true_eq, and_comm]
    simp
  refine ⟨(lineEnds 0 cs).filter (· ≤ i), ?_, takeWhile_le_eq_filter hends i, ?_, ?_⟩
  · rw [lineStarts, List.takeWhile_cons_of_pos (by simp), takeWhile_le_eq_filter hends]
  · have hnodup : ((lineEnds 0 cs).filter (· ≤ i)).Nodup :=
      (hends.imp Nat.ne_of_lt).filter _
    rw [← List.toFinset_card_of_nodup hnodup]
    congr 1
    ext e
    rw [List.mem_toFinset, hmem]
  · generalize hfilter : (lineEnds 0 cs).filter (· ≤ i) = ends at hmem
    have hle : (0 :: ends).Pairwise (· ≤ ·) := by
      rw [← hfilter]
      exact (hsorted.sublist (List.filter_sublist.cons_cons 0)).imp Nat.le_of_lt
    apply Nat.le_antisymm
    · rcases List.mem_cons.mp (List.getLast_mem (List.cons_ne_nil 0 ends)) with h0 | hlast
      · rw [h0]
        exact Nat.zero_le _
      · exact le_lineStart ((hmem _).mp hlast)
    · by_cases hzero : lineStart cs i = 0
      · rw [hzero]
        exact Nat.zero_le _
      · exact hle.rel_getLast (List.mem_cons_of_mem 0 ((hmem _).mpr (lineStart_mem hzero)))

/-- The position of an offset: its line is one more than the number of terminators up to it, and its
column counts from the end of the last of them. -/
theorem position_eq (cs : List Char) (i : Nat) :
    position cs i = ⟨1 + (endsUpTo cs i).card, i - lineStart cs i + 1⟩ := by
  obtain ⟨ends, -, hends, hlength, hlast⟩ := takeWhile_lineStarts cs i
  rw [position, lineStarts, locate, locateFrom_eq, ← hlength, ← hlast]
  simp only [hends]

/-- Positions come in the order of the offsets. -/
theorem strictMono_position (cs : List Char) :
    StrictMono fun i => toLex ((position cs i).line, (position cs i).column) := by
  intro i j hij
  have hsub : endsUpTo cs i ⊆ endsUpTo cs j := fun e he =>
    have ⟨hle, hend⟩ := mem_endsUpTo.mp he
    mem_endsUpTo.mpr ⟨Nat.le_trans hle (Nat.le_of_lt hij), hend⟩
  have hstart := lineStart_le cs i
  rw [Prod.Lex.toLex_lt_toLex', position_eq, position_eq]
  refine ⟨Nat.add_le_add_left (Finset.card_le_card hsub) 1, fun hline => ?_⟩
  -- on one line both offsets count from the same start
  have hsame : endsUpTo cs i = endsUpTo cs j :=
    Finset.eq_of_subset_of_card_le hsub (Nat.le_of_eq (Nat.add_left_cancel hline).symm)
  have hstart' : lineStart cs i = lineStart cs j :=
    Nat.le_antisymm (lineStart_mono hsub) (lineStart_mono hsame.ge)
  dsimp only
  omega

/-- **A mark is at the line and the column that the terminators up to it say.**  The starts of the
lines increase from 0, so the line can be found by bisection: it is the number of starts up to the
mark.  The table has an entry for it, which does not lie beyond the mark.  Two marks at different
offsets have different positions, in the order of their offsets. -/
theorem position_of_mark (cs : List Char) :
    (∀ m, (Markup.Source.ofText cs).position m = position cs m.index) ∧
      (lineStarts cs).head? = some 0 ∧ (lineStarts cs).Pairwise (· < ·) ∧
      (∀ i, (position cs i).line = 1 + (endsUpTo cs i).card ∧
        (position cs i).line = ((lineStarts cs).takeWhile (· ≤ i)).length ∧
        (lineStarts cs)[(position cs i).line - 1]? = some (lineStart cs i) ∧
        lineStart cs i ≤ i ∧ (position cs i).column = i - lineStart cs i + 1) ∧
      StrictMono fun i => toLex ((position cs i).line, (position cs i).column) := by
  refine ⟨fun _ => rfl, rfl, pairwise_lineStarts cs, fun i => ?_, strictMono_position cs⟩
  obtain ⟨ends, hstarts, -, hlength, hlast⟩ := takeWhile_lineStarts cs i
  have hline : (position cs i).line = ends.length + 1 := by
    rw [position_eq, ← hlength, Nat.add_comm]
  refine ⟨by rw [position_eq], by rw [hline, hstarts, List.length_cons], ?_, lineStart_le cs i,
    by rw [position_eq]⟩
  have hprefix : 0 :: ends <+: lineStarts cs := hstarts ▸ List.takeWhile_prefix _
  rw [hline, Nat.add_sub_cancel, ← hlast, List.getLast_eq_getElem]
  exact (List.prefix_iff_getElem?.mp hprefix) _ _

/-- The first line ends with both characters, the second with a carriage return on its own; past the
end of the text the last line goes on. -/
example : [0, 1, 2, 3, 4, 5, 9].map (position "a\r\nb\rc".toList) =
    [⟨1, 1⟩, ⟨1, 2⟩, ⟨1, 3⟩, ⟨2, 1⟩, ⟨2, 2⟩, ⟨3, 1⟩, ⟨3, 5⟩] := by decide

end YamlDelta.Text
