/-
What a run finds out does not depend on how it is shown.

The outcome is read off the differences before any view is made, so settings that compare
the same files in the same way find out the same.  That each view tells as much is another
matter.  The counts add up to the number of differences, and the data have an array of
differences for each document.  The unified view has no list of differences to go by: it is
empty for equal streams because it is not made for them, and not empty for others because
the merged document marks all that is reported, and everything that is marked takes a line.

A run that fails has written nothing, as writing is the last that it does.
-/
import YamlDelta.Command.Run
import YamlDelta.Proofs.Compare.Equality
import YamlDelta.Proofs.View.Breaks
import YamlDelta.Proofs.View.Marks

namespace YamlDelta

/-! ### Summaries -/

/-- An array of arrays that are not all empty. -/
def Json.HoldsItems (j : Json) : Prop :=
  ∃ arrays items, j = .array arrays ∧ .array items ∈ arrays ∧ items ≠ []

theorem Counts.total_add (a b : Counts) : (a.add b).total = a.total + b.total := by
  simp only [total, add]
  omega

theorem Counts.text_ne_empty (c : Counts) : c.text ≠ "" := by
  simp [text]

namespace StreamDiff

theorem pretty_toJson_ne_empty (d : StreamDiff) : d.toJson.pretty ≠ "" := by
  unfold toJson Json.pretty Json.prettyAt Json.enclose
  split <;> simp

theorem hasDifferences_iff {d : StreamDiff} :
    d.hasDifferences = true ↔ ∃ doc ∈ d.documents, doc.differences ≠ [] := by
  simp [hasDifferences, List.any_eq_true]

theorem total_foldl_eq_zero {ds : List DocumentDiff} {c : Counts} :
    (ds.foldl (fun c d => c.add d.counts) c).total = 0 ↔
      c.total = 0 ∧ ∀ d ∈ ds, d.differences = [] := by
  induction ds generalizing c with
  | nil => simp
  | cons d ds ih =>
      rw [List.foldl_cons, ih, Counts.total_add, DocumentDiff.total_counts, Nat.add_eq_zero_iff,
        List.length_eq_zero_iff, List.forall_mem_cons, and_assoc]

/-- Something differs exactly if there is something to count. -/
theorem total_counts_ne_zero {d : StreamDiff} :
    d.counts.total ≠ 0 ↔ d.hasDifferences = true := by
  rw [counts, Ne, total_foldl_eq_zero, hasDifferences_iff]
  simp [Counts.zero, Counts.total]

/-- Something differs exactly if some document has an array of differences that is not empty. -/
theorem holdsItems_toJson {d : StreamDiff} :
    d.toJson.HoldsItems ↔ d.hasDifferences = true := by
  rw [hasDifferences_iff]
  constructor
  · rintro ⟨arrays, items, harrays, hitems, hne⟩
    cases harrays
    obtain ⟨doc, hdoc, heq⟩ := List.mem_map.mp hitems
    cases heq
    exact ⟨doc, hdoc, fun h => hne (List.map_eq_nil_iff.mpr h)⟩
  · rintro ⟨doc, hdoc, hne⟩
    exact ⟨_, _, rfl, List.mem_map_of_mem hdoc, fun h => hne (List.map_eq_nil_iff.mp h)⟩

end StreamDiff

/-! ### The unified view -/

namespace Unified

open Compare

variable {left right : Stream} {options : CompareOptions}

theorem reported_ne_nil {R : Report} (h : R ≠ []) : reported R ≠ [] := by
  obtain ⟨⟨p, d⟩, R, rfl⟩ := List.exists_cons_of_ne_nil h
  cases d <;> simp [reported, Difference.left?, Difference.right?]

/-- Pieces take lines. -/
theorem LaysOut.ne_nil {xs : List Piece} {ls : List Line} (h : LaysOut xs ls) (hne : xs ≠ []) :
    ls ≠ [] := by
  rintro rfl
  obtain ⟨x, xs, rfl⟩ := List.exists_cons_of_ne_nil hne
  have hrows := List.forall₂_nil_right_iff.mp h
  rw [List.flatMap_cons, List.append_eq_nil_iff] at hrows
  exact rows_ne_nil x hrows.1

/-- **Where documents differ, the merged document has lines**, whatever the comparison. -/
theorem documentAt_ne_nil {leftText rightText : String} {i : Nat}
    (hleft : Stream.ofText leftText = .ok left) (hright : Stream.ofText rightText = .ok right)
    (h : Compare.optional options (left.document i) (right.document i) ≠ []) :
    documentAt left right (.ofStreams options left right) i ≠ [] := by
  cases hl : left.document i with
  | none =>
      cases hr : right.document i with
      | none =>
          rw [hl, hr] at h
          exact absurd rfl h
      | some r =>
          rw [documentAt, hl, hr, document, annotate, Ne, List.map_eq_nil_iff]
          exact Emitter.nodeLines_ne_nil .plain r
  | some l =>
      cases hr : right.document i with
      | none =>
          rw [documentAt, hl, hr, document, annotate, Ne, List.map_eq_nil_iff]
          exact Emitter.nodeLines_ne_nil .plain l
      | some r =>
          obtain ⟨R, hR, -, hlocated⟩ := exists_located options
            (Stream.placed_of_ofText hleft hl) (Stream.placed_of_ofText hright hr)
          have hreport : R ≠ [] := by
            rintro rfl
            rw [hl, hr] at h
            exact h hR.symm
          have hmarked : marked ((documentListing _ l r).flatMap Listing.pieces) ≠ [] := fun hnil =>
            reported_ne_nil hreport (List.sublist_nil.mp (hnil ▸ reported_sublist hlocated))
          have hlines := (laysOut_filter_listing Status.isMarked rfl _).ne_nil hmarked
          rw [documentAt_eq hl hr, document_eq_lines hlocated]
          exact fun hnil => hlines (by rw [hnil, List.filter_nil])

/-- **The unified view of streams that differ is not empty.** -/
theorem render_ne_empty_of_hasDifferences {leftText rightText : String} (p : Palette)
    (hleft : Stream.ofText leftText = .ok left) (hright : Stream.ofText rightText = .ok right)
    (h : (StreamDiff.ofStreams options left right).hasDifferences = true) :
    render p left right (.ofStreams options left right) ≠ "" := by
  obtain ⟨i, hi⟩ : ∃ i, Compare.optional options (left.document i) (right.document i) ≠ [] := by
    by_contra hnone
    push Not at hnone
    rw [StreamDiff.hasDifferences_eq_false.mpr hnone] at h
    cases h
  refine Lines.intercalate_ne_empty (fun hnil => ?_) fun _ => ne_empty_of_mem_lines
  have hlength : i < max left.length right.length := by
    by_contra hle
    rw [Stream.document_eq_none_of_length_le (by omega),
      Stream.document_eq_none_of_length_le (by omega)] at hi
    exact hi rfl
  have hdocument := List.flatMap_eq_nil_iff.mp hnil i (List.mem_range.mpr hlength)
  rw [List.append_eq_nil_iff, List.map_eq_nil_iff] at hdocument
  exact documentAt_ne_nil hleft hright hi hdocument.2

end Unified

/-! ### Runs -/

namespace Command

/-- Run on files that stay as they are, and put what is written behind what has been written
before. -/
def runOnto (read : Reader Id) (terminal : Bool) (s : Settings) :
    StateM String (Except RunFault Outcome) :=
  runTo (m := StateM String) (fun name => pure (read name)) (fun text => modify (· ++ text))
    terminal s

variable {read : Reader Id} {terminal : Bool} {s s' : Settings} {l r : Stream}

/-! Files that stay as they are can be read at any time. -/

theorem load_pure {m : Type → Type} [Monad m] [LawfulMonad m] (read : Reader Id) (name : String) :
    load (m := m) (fun name => pure (read name)) name = pure (load read name) := by
  unfold load
  rw [pure_bind]
  generalize read name = bytes
  cases bytes <;> rfl

theorem run_pure {m : Type → Type} [Monad m] [LawfulMonad m] (read : Reader Id) (terminal : Bool)
    (s : Settings) :
    run (m := m) (fun name => pure (read name)) terminal s = pure (run read terminal s) := by
  unfold run
  simp only [load_pure, pure_bind]
  generalize load read s.left = l
  generalize load read s.right = r
  cases s.fault? with
  | some fault => rfl
  | none =>
      cases l with
      | error fault => rfl
      | ok l => cases r <;> rfl

theorem runOnto_of_error {fault : RunFault} (h : (run read terminal s).run = .error fault)
    (out : String) : (runOnto read terminal s).run out = (.error fault, out) := by
  rw [runOnto, runTo, run_pure, pure_bind, show run read terminal s = .error fault from h]
  rfl

theorem runOnto_of_ok {report : Report} (h : (run read terminal s).run = .ok report)
    (out : String) :
    (runOnto read terminal s).run out = (.ok report.outcome, out ++ report.output) := by
  rw [runOnto, runTo, run_pure, pure_bind, show run read terminal s = .ok report from h]
  cases hempty : report.output.isEmpty with
  | true =>
      have hout : out = out ++ report.output := by
        rw [String.isEmpty_iff.mp hempty, String.append_empty]
      simp only [hempty]
      exact Prod.ext rfl hout
  | false =>
      simp only [hempty]
      rfl

/-- **A run that fails has written nothing.** -/
theorem written_of_error {fault : RunFault} {out written : String}
    (h : (runOnto read terminal s).run out = (.error fault, written)) : written = out := by
  cases hrun : (run read terminal s).run with
  | error fault =>
      rw [runOnto_of_error hrun] at h
      cases h
      rfl
  | ok report =>
      rw [runOnto_of_ok hrun] at h
      cases h

/-! ### Settings that ask the same -/

/-- The settings compare the same files in the same way, and differences are as much of a failure
to the one as to the other.  What is shown of them, and how, may be different. -/
structure Settings.AskSame (s s' : Settings) : Prop where
  left : s'.left = s.left
  right : s'.right = s.right
  ignoreOrder : s'.ignoreOrder = s.ignoreOrder
  exitCode : s'.exitCode = s.exitCode

theorem Settings.AskSame.outcome_eq (h : s.AskSame s') (l r : Stream) :
    s'.outcome (s'.diff l r) = s.outcome (s.diff l r) := by
  rw [Settings.outcome, Settings.outcome, Settings.diff, Settings.diff, Settings.compareOptions,
    Settings.compareOptions, h.ignoreOrder, h.exitCode]

/-- Settings without contradiction and files that can be read make a report. -/
theorem run_eq_report (hs : s.fault? = none) (hl : (load read s.left).run = .ok l)
    (hr : (load read s.right).run = .ok r) (terminal : Bool) :
    (run read terminal s).run = .ok (s.report terminal l r) := by
  have hl' : load read s.left = pure (.ok l) := hl
  have hr' : load read s.right = pure (.ok r) := hr
  rw [run, hs]
  simp only [hl', hr', pure_bind]
  rfl

/-- What has been loaded was a text. -/
theorem exists_text_of_load {name : String} (h : (load read name).run = .ok l) :
    ∃ text, Stream.ofText text = .ok l := by
  unfold load at h
  generalize read name = bytes at h
  cases bytes with
  | error fault => cases h
  | ok bytes =>
      replace h : parse name bytes = .ok l := h
      unfold parse at h
      split at h
      · cases h
      · rename_i text _
        refine ⟨text, ?_⟩
        cases hstream : Stream.ofText text with
        | error fault =>
            rw [hstream] at h
            cases h
        | ok l' =>
            rw [hstream] at h
            cases h
            rfl

theorem endLine_of_ne_empty {text : String} (h : text ≠ "") : endLine text = text ++ "\n" := by
  rw [endLine, if_neg (by simpa using h)]

theorem endLine_eq_empty {text : String} : endLine text = "" ↔ text = "" := by
  constructor
  · intro h
    by_contra hne
    rw [endLine_of_ne_empty hne] at h
    simp at h
  · rintro rfl
    rfl

/-- The unified view is empty exactly if nothing differs. -/
theorem shown_unified_eq_empty {leftText rightText : String} (hview : s.view = .unified)
    (hleft : Stream.ofText leftText = .ok l) (hright : Stream.ofText rightText = .ok r)
    (terminal : Bool) :
    s.shown terminal l r (s.diff l r) = "" ↔ (s.diff l r).hasDifferences = false := by
  rw [Settings.shown, hview]
  cases hdiff : (s.diff l r).hasDifferences with
  | false => simp
  | true =>
      have hne := Unified.render_ne_empty_of_hasDifferences (s.palette terminal) hleft hright hdiff
      simpa [hdiff] using! hne

/-- **What a run finds out does not depend on how it is shown.**  Settings that ask the same, and do
not contradict themselves, find out the same about files that can be read; only what they write
may be different.  Differences are found exactly if there is something to count, and exactly if
the data hold a difference; they make the status 1 exactly if they count as a failure, and the
unified view is empty exactly if there are none.  A run that fails has written nothing. -/
theorem verdict_of_any_view (read : Reader Id) (terminal terminal' : Bool) (s s' : Settings)
    {l r : Stream} (hs : s.fault? = none) (hs' : s'.fault? = none) (hask : s.AskSame s')
    (hl : (load read s.left).run = .ok l) (hr : (load read s.right).run = .ok r)
    (out out' : String) :
    ∃ verdict shown shown',
      (runOnto read terminal s).run out = (.ok verdict, out ++ shown) ∧
      (runOnto read terminal' s').run out' = (.ok verdict, out' ++ shown') ∧
      (verdict.hasDifferences = true ↔ (s.diff l r).counts.total ≠ 0) ∧
      (verdict.hasDifferences = true ↔ (s.diff l r).toJson.HoldsItems) ∧
      (verdict.exitStatus = 1 ↔ s.exitCode = true ∧ verdict.hasDifferences = true) ∧
      (s.view = .stat → shown = (s.diff l r).counts.text ++ "\n") ∧
      (s.view = .json → shown = (s.diff l r).toJson.pretty ++ "\n") ∧
      (s.view = .unified → (shown = "" ↔ verdict.hasDifferences = false)) ∧
      ∀ (read : Reader Id) (terminal : Bool) (s : Settings) (fault : RunFault)
        (out written : String),
        (runOnto read terminal s).run out = (.error fault, written) → written = out := by
  have hrun := run_eq_report hs hl hr terminal
  have hrun' := run_eq_report hs' (hask.left ▸ hl) (hask.right ▸ hr) terminal'
  obtain ⟨leftText, hleft⟩ := exists_text_of_load hl
  obtain ⟨rightText, hright⟩ := exists_text_of_load hr
  refine ⟨s.outcome (s.diff l r), (s.report terminal l r).output,
    (s'.report terminal' l r).output, runOnto_of_ok hrun out, ?_,
    StreamDiff.total_counts_ne_zero.symm, StreamDiff.holdsItems_toJson.symm, ?_,
    fun hview => ?_, fun hview => ?_, fun hview => ?_,
    fun _ _ _ _ _ _ => written_of_error⟩
  · rw [← hask.outcome_eq]
    exact runOnto_of_ok hrun' out'
  · simp [Settings.outcome]
  · rw [Settings.report, Settings.shown, hview]
    exact endLine_of_ne_empty (Counts.text_ne_empty _)
  · rw [Settings.report, Settings.shown, hview]
    exact endLine_of_ne_empty (StreamDiff.pretty_toJson_ne_empty _)
  · exact endLine_eq_empty.trans (shown_unified_eq_empty hview hleft hright terminal)

/-- A value that differs, in the unified view and in a coloured list with everything on it. -/
theorem verdict_of_any_view_of_edit :
    ∃ (read : Reader Id) (s : Settings) (shown shown' : String),
      read s.left = .ok [0x78, 0x3a, 0x20, 0x31, 0x0a] ∧
      read s.right = .ok [0x78, 0x3a, 0x20, 0x32, 0x0a] ∧ s.view = .unified ∧
      (runOnto read false s).run "" = (.ok ⟨true, 1⟩, shown) ∧ shown ≠ "" ∧
      (runOnto read true { s with list := true, metadata := true, color := .always }).run "" =
        (.ok ⟨true, 1⟩, shown') := by
  let read : Reader Id := fun name =>
    .ok (if name == "a" then [0x78, 0x3a, 0x20, 0x31, 0x0a] else [0x78, 0x3a, 0x20, 0x32, 0x0a])
  let s : Settings := ⟨"a", "b", true, false, false, false, false, false, false, .never, .text⟩
  let s' : Settings := { s with list := true, metadata := true, color := .always }
  have hload : ∀ name ∈ ["a", "b"], ∃ st, (load read name).run = .ok st := by
    have hok : ∀ name ∈ ["a", "b"], (load read name).run.isOk = true := by decide +kernel
    intro name hname
    specialize hok name hname
    cases hst : (load read name).run with
    | error fault =>
        rw [hst] at hok
        cases hok
    | ok st => exact ⟨st, rfl⟩
  obtain ⟨l, hl⟩ := hload "a" (by decide)
  obtain ⟨r, hr⟩ := hload "b" (by decide)
  obtain ⟨verdict, shown, shown', hrun, hrun', -, -, -, -, -, hempty, -⟩ :=
    verdict_of_any_view read false true s s' rfl rfl ⟨rfl, rfl, rfl, rfl⟩ hl hr "" ""
  have hverdict : ((runOnto read false s).run "").1.toOption = some ⟨true, 1⟩ := by
    decide +kernel
  rw [hrun] at hverdict
  obtain rfl : verdict = ⟨true, 1⟩ := Option.some.inj hverdict
  rw [String.empty_append] at hrun hrun'
  refine ⟨read, s, shown, shown', rfl, rfl, rfl, hrun, fun hshown => ?_, hrun'⟩
  cases (hempty rfl).mp hshown

end Command

end YamlDelta
