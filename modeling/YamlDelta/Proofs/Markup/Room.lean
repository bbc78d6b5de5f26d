/-
How long the first key of a text can be.

The text of a scalar is no longer than what is left where the scalar is read.  So if a text begins
with the marker of a document, no scalar of it is longer than what comes after the marker and the
gap behind it (`length_le_of_marker`).

A key is the text of a scalar, or that of a collection, which begins with a bracket
(`firstKey_cases`).
-/
import YamlDelta.Proofs.Markup.Beginning
import YamlDelta.Proofs.Markup.FirstKey

namespace YamlDelta.Markup

variable {cs : List Char} {n fuel : Nat} {t : Token} {style : Style} {text : String}

/-! ### Scalars -/

namespace Scanner

open Progress (Reads)

variable {s s' : Scanner} {p q : Progress} {l : Lexeme}

/-- No scalar is longer than this, and what is left has no room for a longer one. -/
structure Progress.Within (n : Nat) (p : Progress) : Prop where
  scalars : ∀ t ∈ p.scalars, ∀ style text, t.lexeme = .scalar style text → text.length ≤ n
  room : ∀ r, r <:+ p.cursor.rest → isGap (r.headD '\x00') = false → r.length ≤ n

theorem Progress.Within.reads (h : p.Within n) (hpq : p.Reads q) : q.Within n := by
  rcases hpq with hpq | ⟨t, hpq⟩
  · exact ⟨hpq.scalars ▸ h.scalars, fun r hr => h.room r (hr.trans hpq.passes.suffix)⟩
  · obtain ⟨c, hc, hbegins⟩ := hpq.begins
    refine ⟨?_, fun r hr => h.room r (hr.trans hpq.passes.suffix)⟩
    rw [hpq.scalars, List.forall_mem_append, List.forall_mem_singleton]
    refine ⟨h.scalars, fun style text htext => (hbegins.room style text htext).trans ?_⟩
    exact h.room c.rest hc.suffix (Cursor.head_eq_headD c ▸ hbegins.gap)

theorem rest_fetchMarker (h : s.fetchMarker l = .ok s') :
    s'.cursor.rest = s.cursor.rest.drop 3 := by
  obtain ⟨t, ht, h⟩ := exists_of_bind_ok h
  cases h
  rw [← cursor_of_progress (progress_endBlocks ht)]
  rfl

/-- A marker is passed, and makes no scalar. -/
theorem exists_of_marker (hmarker : s.cursor.isMarker = true) (h : s.dispatch = .ok s') :
    s'.progress.scalars = s.progress.scalars ∧ s'.cursor.rest <:+ s.cursor.rest.drop 3 := by
  have hhead := head_of_isMarker hmarker
  have hend : isEnd s.cursor.head = false := by
    rcases hhead with hhead | hhead
    all_goals rw [hhead]; rfl
  have hdirective : (s.cursor.column == 0 && s.cursor.head == '%') = false := by
    rw [Bool.and_eq_false_iff]
    rcases hhead with hhead | hhead
    all_goals exact .inr (by rw [hhead]; rfl)
  rw [dispatch, hend, if_neg Bool.false_ne_true, hdirective, if_neg Bool.false_ne_true] at h
  split at h
  · rename_i hstart
    exact ⟨(quiet_fetchMarker (by decide) hstart rfl h).scalars,
      (rest_fetchMarker h) ▸ List.suffix_refl _⟩
  · rename_i hstart
    rw [Cursor.isMarker, Bool.or_eq_true] at hmarker
    have hstop := hmarker.resolve_left hstart
    rw [if_pos hstop] at h
    refine ⟨(quiet_fetchDocumentEnd hstop h).scalars, ?_⟩
    obtain ⟨t, ht, h⟩ := exists_of_bind_ok h
    obtain ⟨⟨found, u⟩, hu, h⟩ := exists_of_bind_ok h
    dsimp only at h
    split at h
    · cases h
      rw [← rest_fetchMarker ht]
      exact (quiet_skipInline hu).passes.suffix
    · cases h

/-- What comes after a marker is a gap, where no scalar begins. -/
theorem within_of_marker (hmarker : s.cursor.isMarker = true) (hscalars : s.progress.scalars = [])
    (h : s.dispatch = .ok s') : s'.progress.Within (s.cursor.rest.length - 4) := by
  obtain ⟨hsame, hrest⟩ := exists_of_marker hmarker h
  have hgap : isGap ((s.cursor.rest.drop 3).headD '\x00') = true := by
    have hpeek : (s.cursor.rest.drop 3).headD '\x00' = s.cursor.peek 3 := by
      rw [List.headD_eq_head?_getD, List.head?_drop, Cursor.peek, List.getD_eq_getElem?_getD]
    rw [hpeek]
    simp only [Cursor.isMarker, Cursor.isMarkerOf, Bool.or_eq_true, Bool.and_eq_true] at hmarker
    exact hmarker.elim (·.2) (·.2)
  refine ⟨by rw [hsame, hscalars]; exact List.forall_mem_nil _, fun r hr hhead => ?_⟩
  have hsuffix : r <:+ s.cursor.rest.drop 3 := hr.trans hrest
  have hle := hsuffix.length_le
  have hne : r.length ≠ (s.cursor.rest.drop 3).length := fun hlength => by
    rw [hsuffix.eq_of_length hlength, hgap] at hhead
    cases hhead
  rw [List.length_drop] at hle hne
  omega

end Scanner

namespace Scan

open Scanner

/-- What a scan goes on to read. -/
theorem length_le_of_run {s : Scanner} (h : s.progress.Within n) (ht : t ∈ (Scan.run fuel s).tokens)
    (htext : t.lexeme = .scalar style text) : text.length ≤ n := by
  obtain ⟨s', k, hs', -, htokens⟩ := Scan.exists_scanner_of_run (P := fun s => s.progress.Within n)
    (fun _ _ hs hfetch => hs.reads (reads_fetch hfetch))
    (fun _ _ hs hdrop => progress_dropStaleKeys hdrop ▸ hs)
    (fun _ _ hs _ _ _ => ⟨hs.scalars, hs.room⟩) h fuel
  rw [htokens] at ht
  refine hs'.scalars t (List.mem_filter.mpr ⟨List.mem_of_mem_take ht, ?_⟩) style text htext
  rw [Token.isScalar, htext]
  rfl

/-- **After the marker of a document no scalar is longer than what comes after the gap behind the
marker.** -/
theorem length_le_of_marker (hmarker : (Cursor.ofText cs).isMarker = true)
    (ht : t ∈ (Scan.ofText cs).tokens) (htext : t.lexeme = .scalar style text) :
    text.length ≤ cs.length - 4 := by
  have hstops : Stops cs := by
    have hhead := head_of_isMarker hmarker
    rw [Cursor.head_eq_headD] at hhead
    cases cs with
    | nil => exact absurd hhead (by decide)
    | cons ch cs =>
        rcases hhead with rfl | rfl
        all_goals exact stops_cons rfl (by decide)
  obtain ⟨s, hs, -, herror, hok⟩ := Scan.ofText_cases hstops
  cases hnext : s.dispatch with
  | error e =>
      rw [herror e hnext] at ht
      obtain rfl := List.mem_singleton.mp ht
      cases htext
  | ok s' =>
      rw [hok s' hnext] at ht
      have hscalars : s.progress.scalars = [] := by
        obtain ⟨a, htokens, ha⟩ := List.map_eq_singleton_iff.mp hs.lexemes
        show scalarTokens s.tokens.toList = []
        rw [htokens, scalarTokens_cons_of_not (isScalar_of_lexeme ha rfl)]
        rfl
      have hwithin := within_of_marker
        ((isMarker_eq_ofText hs.rest hs.column).trans hmarker) hscalars hnext
      rw [hs.rest] at hwithin
      exact length_le_of_run hwithin ht htext

end Scan

/-! ### Keys -/

/-- A scalar that is written is among the tokens. -/
theorem Tells.mem {ts : List Token} {es : List Event} {e : Event} (h : Tells ts es) (he : e ∈ es)
    (ht : e.scalar? = some t) : t ∈ ts := by
  induction h with
  | nil => cases he
  | cons told rest ih =>
      rcases List.mem_cons.mp he with rfl | he
      · refine List.mem_append_left _ (List.mem_of_mem_filter (p := Token.isScalar) ?_)
        show t ∈ scalarTokens _
        rw [told.scalars, ht]
        exact List.mem_singleton_self t
      · exact List.mem_append_right _ (ih he)

variable {source : Source} {k : String} {v : Node} {p : Place} {fs : List (String × Node)}
  {known : Anchors} {w : Written}

/-- The text that stands for a collection begins with a bracket.  An alias means nothing yet. -/
theorem bracket_of_complex {path : String} {n : Node} (hw : w.isScalar = false)
    (h : w.node source path [] = .ok (n, known)) :
    n.keyText.toList.head? = some '[' ∨ n.keyText.toList.head? = some '{' := by
  cases w with
  | scalar => cases hw
  | reference id m =>
      obtain ⟨_, hlookup, -⟩ := Written.exists_of_reference_ok h
      cases hlookup
  | sequence anchor m ws =>
      obtain ⟨is, _, -, hn, -⟩ := Written.exists_of_sequence_ok h
      obtain rfl : n = _ := hn
      exact .inl (by simp [Node.keyText, Node.flow])
  | mapping anchor m es =>
      obtain ⟨fs, _, -, hn, -⟩ := Written.exists_of_mapping_ok h
      obtain rfl : n = _ := hn
      exact .inr (by simp [Node.keyText, Node.flow])

/-- **The first key of a text is the text of one of its scalars, or that of a collection**, if it is
not empty. -/
theorem firstKey_cases (hk : k ≠ "")
    (h : Stream.ofChars cs = .ok ⟨[some (.mapping ((k, v) :: fs) p)]⟩) :
    (∃ t ∈ (Scan.ofText cs).tokens, ∃ style, t.lexeme = .scalar style k) ∨
      k.toList.head? = some '[' ∨ k.toList.head? = some '{' := by
  obtain ⟨es, hevents, hstream⟩ := exists_of_ofChars h
  obtain ⟨ds, rfl, htells⟩ := exists_streamEvents_of_ofText hevents
  obtain ⟨w, ds, known, rfl, hw⟩ := exists_node_of_ofEvents (List.prefix_refl _) hstream
  cases w with
  | mapping anchor m ps =>
      obtain ⟨gs, known₁, hentries, hgs, -⟩ := Written.exists_of_mapping_ok hw
      cases hgs
      cases ps with
      | nil => cases hentries
      | cons q ps =>
          obtain ⟨l, u⟩ := q
          obtain ⟨key, known₂, n, known₃, gs', hkey, -, -, hgs'⟩ :=
            Written.exists_of_entries_ok hentries
          cases hgs'
          rcases Written.key_cases hkey with
            ⟨text, style, anchor', isText, mark, rfl, hr⟩ | ⟨hcomplex, m, hm, hr⟩
          · obtain rfl : k = text := congrArg Prod.fst hr
            have hscalar : (Event.scalar k style anchor' isText mark).scalar? =
                some ⟨mark, .scalar style k⟩ := if_neg fun hempty => hk hempty.2
            refine .inl ⟨_, htells.mem ?_ hscalar, style, rfl⟩
            simp [streamEvents_cons, Written.events, Written.eventsEntries]
          · obtain rfl : k = m.keyText := hr
            exact .inr (bracket_of_complex hcomplex hm)
  | reference id m =>
      obtain ⟨n, hlookup, -⟩ := Written.exists_of_reference_ok hw
      cases hlookup
  | sequence anchor m ws =>
      obtain ⟨is, known₁, -, his, -⟩ := Written.exists_of_sequence_ok hw
      cases his
  | scalar text style anchor isText m => cases hw

end YamlDelta.Markup
