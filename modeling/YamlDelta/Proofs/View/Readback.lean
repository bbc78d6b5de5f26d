/-
Reading back what was written.

The text of a node is read as a stream of one document, which has the same data, if what the
node holds is legible.  The scanner finds the tokens of the node in it, and from these the
node is built again.  One case is different: a document that is a `~` is told from one with
nothing in it by looking at the text.

What is not legible may be lost.  This happens to the spaces at the beginning of a block of
text.
-/
import YamlDelta.Proofs.Compare.Equality
import YamlDelta.Proofs.Markup.Placement
import YamlDelta.Proofs.View.Rebuilding

namespace YamlDelta.Emitter

open Markup

variable {n : Node}

/-- The text is read as one document, which does not differ from the node. -/
def ReadsBack (n : Node) : Prop :=
  ∃ back m, Stream.ofText (fileText n) = .ok back ∧ back.documents = [some m] ∧
    Compare.nodes .positional n m = []

theorem eq_null_of_kind {n : Node} (h : n.kind = .null) : ∃ p, n = .scalar .null p := by
  cases n with
  | mapping | sequence => cases h
  | scalar v p =>
      cases v with
      | null => exact ⟨p, rfl⟩
      | string | literal | integer | float | bool => cases h

/-- A `~` that is written is there. -/
theorem readsBack_tilde {p : Place} (h : p.text = "~") : ReadsBack (.scalar .null p) := by
  have htext : fileText (.scalar .null p) = "~\n" := by
    show "\n".intercalate [p.text] ++ "\n" = "~\n"
    rw [h]
    rfl
  obtain ⟨back, -, m, -, hback, -, hm, -, htest⟩ :=
    Stream.exists_of_firstDocuments "~\n" "~\n"
      (fun back _ m _ => back.documents.length == 1 && m.kind == .null) (by decide +kernel)
  simp only [Bool.and_eq_true, beq_iff_eq] at htest
  obtain ⟨hlength, hkind⟩ := htest
  obtain ⟨q, rfl⟩ := eq_null_of_kind hkind
  refine ⟨back, .scalar .null q, htext ▸ hback, ?_,
    Compare.positional_eq_nil_iff.mpr (.scalar .null)⟩
  obtain ⟨d, hd⟩ := List.length_eq_one_iff.mp hlength
  rw [Stream.document, hd] at hm
  rw [hd, show d = _ from hm]

/-- The tokens of a node make a document of a text. -/
theorem ofChars_of_yields {cs : List Char} {ts : List Token} {w : Written} {t : Token} {mark : Mark}
    {m : Node} {known : Anchors} (h : Yields ts w)
    (htokens : (Scan.ofText cs).tokens = t :: (ts ++ [⟨mark, .streamEnd⟩]))
    (hpresent : w.isAbsent (Source.ofText cs) = false)
    (hm : w.node (Source.ofText cs) "" [] = .ok (m, known)) :
    Stream.ofChars cs = .ok ⟨[some m]⟩ := by
  have hevents : Event.ofText cs = .ok (streamEvents [w]) := ofScan_eq h htokens
  have hdocuments : Written.documents (Source.ofText cs) [] [w] = .ok ([some m], known) := by
    rw [Written.documents, Written.document, hpresent, if_neg Bool.false_ne_true, hm]
    rfl
  have hstream : ofEvents (Source.ofText cs) (streamEvents [w]) = .ok ⟨[some m]⟩ := by
    rw [ofEvents_streamEvents, hdocuments]
    rfl
  unfold Stream.ofChars
  simp only [hevents, hstream]
  rfl

/-- A node with the tokens of a text is what the text is read as. -/
theorem readsBack_of_rebuilds {ts : List Token} {w : Written} {t : Token} {m : Mark}
    (h : Rebuilds n ts w)
    (htokens : (Scan.ofText (nodeText 0 n [])).tokens = t :: (ts ++ [⟨m, .streamEnd⟩]))
    (hpresent : ∀ source, w.isAbsent source = false) : ReadsBack n := by
  obtain ⟨m, hm, hsame⟩ := h.restores (Source.ofText (nodeText 0 n [])) "" []
  refine ⟨⟨[some m]⟩, m, ?_, rfl, Compare.positional_eq_nil_iff.mpr hsame⟩
  unfold Stream.ofText
  rw [toList_fileText]
  exact ofChars_of_yields h.yields htokens (hpresent _) hm

/-- **What is legible is read back**, as one document that does not differ. -/
theorem legible_reads_back (h : Legible n) (hclear : ClearOfMarkers n) :
    ∃ back m, Stream.ofText (fileText n) = .ok back ∧ back.documents = [some m] ∧
      Compare.nodes .positional n m = [] := by
  by_cases htilde : ∃ p, n = .scalar .null p ∧ p.text = "~"
  · obtain ⟨p, rfl, hp⟩ := htilde
    exact readsBack_tilde hp
  · obtain ⟨htokens, -⟩ := tokens_nodeText h hclear
    obtain ⟨_, ts, _, htokens, hts⟩ := exists_enclosed htokens
    obtain ⟨w, hw⟩ := exists_rebuilds h ts hts
    exact readsBack_of_rebuilds hw htokens fun source =>
      Bool.eq_false_iff.mpr fun habsent => htilde (hw.present source habsent)

theorem legible_reads_back_of_every_style :
    ∃ source n, Stream.ofText
        "a b:\n- \"c\\td\"\n- [\x7be: 'it''s'\x7d, ~, []]\n\"-\": |+\n  f\n\n   g\n\n" =
      .ok source ∧
      source.document 0 = some n ∧ Legible n ∧ ClearOfMarkers n ∧
      ∃ back m, Stream.ofText (fileText n) = .ok back ∧ back.documents = [some m] ∧
        Compare.nodes .positional n m = [] := by
  obtain ⟨source, -, n, -, hsource, -, hn, -, htest⟩ := Stream.exists_of_firstDocuments
    "a b:\n- \"c\\td\"\n- [\x7be: 'it''s'\x7d, ~, []]\n\"-\": |+\n  f\n\n   g\n\n" "~\n"
    (fun _ _ n _ => isLegible n && decide (ClearOfMarkers n)) (by decide +kernel)
  rw [Bool.and_eq_true, decide_eq_true_eq] at htest
  have h := legible_of_isLegible htest.1
  exact ⟨source, n, hsource, hn, h, htest.2, legible_reads_back h htest.2⟩

/-- A block of text whose first line begins with a space loses that space: its header does not say
how far the block is indented. -/
theorem leading_space_lost :
    ∃ source back n m, Stream.ofText "k: |2\n   a\n" = .ok source ∧
      source.documents.length = 1 ∧ source.document 0 = some n ∧
      fileText n = "k: |\n   a\n" ∧ Stream.ofText (fileText n) = .ok back ∧
      back.document 0 = some m ∧ Compare.nodes .positional n m ≠ [] := by
  obtain ⟨source, back, n, m, hsource, hback, hn, hm, htest⟩ :=
    Stream.exists_of_firstDocuments "k: |2\n   a\n" "k: |\n   a\n"
      (fun source _ n m => source.documents.length == 1 && (fileText n == "k: |\n   a\n" &&
        !(Compare.nodes .positional n m).isEmpty))
      (by decide +kernel)
  simp only [Bool.and_eq_true, beq_iff_eq] at htest
  obtain ⟨hlength, htext, hdiffer⟩ := htest
  refine ⟨source, back, n, m, hsource, hlength, hn, htext, htext ▸ hback, hm, ?_⟩
  simpa using hdiffer

end YamlDelta.Emitter
