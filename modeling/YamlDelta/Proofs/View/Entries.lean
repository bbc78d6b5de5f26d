/-
Which entries of the list view keep their layout.

An entry is meant to be told from the next one by its first characters: the first line
begins with the sign, and the lines below it are empty or set in.  The view sets in the
lines of a collection or of a block of text.  It does not look into texts.  A plain or
single-quoted scalar whose text goes over several lines brings its line breaks along, and
so does a key with a line break in a path; what comes after these is not set in.

`Hangs` says of a text that its further lines are empty or set in.  Whether a text hangs
does not depend on what stands before its first line break, so the question goes through
the parts of an entry, and through the lines of a node, to the texts of the scalars.
-/
import YamlDelta.Proofs.View.Colours

namespace YamlDelta

/-! ### Further lines -/

namespace Lines

/-- The line is empty or begins with a number of spaces. -/
def SetIn (width : Nat) (line : List Char) : Prop :=
  line = [] ∨ List.replicate width ' ' <+: line

/-- The further lines of a text are empty or begin with a number of spaces. -/
def Hangs (width : Nat) (s : String) : Prop :=
  ∀ l ∈ (ofText s).tail, SetIn width l.toList

instance (width : Nat) (line : List Char) : Decidable (SetIn width line) :=
  inferInstanceAs (Decidable (_ ∨ _))

instance (width : Nat) (s : String) : Decidable (Hangs width s) :=
  inferInstanceAs (Decidable (∀ l ∈ _, _))

/-- What may come after a line break: nothing, another one, or the spaces. -/
def Follows (width : Nat) (cs : List Char) : Prop :=
  cs = [] ∨ cs.head? = some '\n' ∨ List.replicate width ' ' <+: cs

variable {width : Nat} {cs ds : List Char} {a b : String}

/-- Whether the spaces are there is seen before the next line break. -/
theorem follows_append_of_break (hds : ds = [] ∨ ds.head? = some '\n') :
    Follows width (cs ++ ds) ↔ Follows width cs := by
  constructor
  · rintro (hnil | hhead | hleads)
    · exact .inl (List.append_eq_nil_iff.mp hnil).1
    · cases cs with
      | nil => exact .inl rfl
      | cons c cs => exact .inr (.inl hhead)
    · rcases List.prefix_or_prefix_of_prefix hleads (List.prefix_append cs ds) with h | h
      · exact .inr (.inr h)
      · obtain ⟨t, ht⟩ := h
        rw [← ht, List.prefix_append_right_inj] at hleads
        cases t with
        | nil => exact .inr (.inr (by rw [← ht, List.append_nil]))
        | cons c t =>
            obtain ⟨u, rfl⟩ := hleads
            have hspace : c = ' ' :=
              List.eq_of_mem_replicate (ht ▸ List.mem_append_right _ (List.mem_cons_self ..))
            rw [hspace] at hds
            rcases hds with h | h <;> simp at h
  · rintro (rfl | hhead | hleads)
    · exact hds.imp_right .inl
    · cases cs with
      | nil => cases hhead
      | cons c cs => exact .inr (.inl hhead)
    · exact .inr (.inr (hleads.trans (List.prefix_append cs ds)))

/-- What ends in a character that is no blank is set in by itself, or not at all. -/
theorem follows_append_of_closed {c : Char} (hc : c ≠ '\n' ∧ c ≠ ' ') :
    Follows width (cs ++ c :: ds) ↔ Follows width (cs ++ [c]) := by
  constructor
  · rintro (hnil | hhead | hleads)
    · cases cs <;> cases hnil
    · refine .inr (.inl ?_)
      cases cs <;> exact hhead
    · refine .inr (.inr ?_)
      have hcs : cs ++ [c] <+: cs ++ c :: ds := ⟨ds, by simp⟩
      rcases List.prefix_or_prefix_of_prefix hleads hcs with h | h
      · exact h
      · have hspace : c ∈ List.replicate width ' ' := h.subset (by simp)
        exact absurd (List.eq_of_mem_replicate hspace) hc.2
  · rintro (hnil | hhead | hleads)
    · cases cs <;> cases hnil
    · refine .inr (.inl ?_)
      cases cs <;> exact hhead
    · exact .inr (.inr (hleads.trans ⟨ds, by simp⟩))

/-- The first line of a text, and what comes after it. -/
theorem exists_firstLine (cs : List Char) :
    ∃ l ls rest, cs.splitOn '\n' = l :: ls ∧ cs = l ++ rest ∧ '\n' ∉ l ∧
      (rest = [] ∨ rest.head? = some '\n') := by
  induction cs with
  | nil => exact ⟨[], [], [], rfl, rfl, List.not_mem_nil, .inl rfl⟩
  | cons c cs ih =>
      by_cases hc : c = '\n'
      · subst hc
        refine ⟨[], cs.splitOn '\n', '\n' :: cs, ?_, rfl, List.not_mem_nil, .inr rfl⟩
        rw [List.splitOn_cons_eq_if_modifyHead, if_pos (beq_self_eq_true _)]
      · obtain ⟨l, ls, rest, hsplit, hcs, hl, hrest⟩ := ih
        refine ⟨c :: l, ls, rest, ?_, congrArg (c :: ·) hcs, ?_, hrest⟩
        · rw [List.splitOn_cons_eq_if_modifyHead, if_neg (by simpa using hc), hsplit]
          rfl
        · rw [List.mem_cons, not_or]
          exact ⟨Ne.symm hc, hl⟩

/-- Every line break of a text is followed by what may come after it. -/
def Broken (width : Nat) : List Char → Prop
  | [] => True
  | c :: cs => (c = '\n' → Follows width cs) ∧ Broken width cs

theorem hangs_iff : Hangs width a ↔ Broken width a.toList := by
  rw [Hangs, ofText, ← List.map_tail, List.forall_mem_map]
  simp only [String.toList_ofList]
  induction a.toList with
  | nil => simp [Broken]
  | cons c cs ih =>
      rw [List.splitOn_cons_eq_if_modifyHead, Broken]
      by_cases hc : c = '\n'
      · obtain ⟨l, ls, rest, hsplit, hcs, hl, hrest⟩ := exists_firstLine cs
        rw [hsplit, List.tail_cons] at ih
        rw [if_pos (by simpa using hc), List.tail_cons, hsplit, List.forall_mem_cons, ih]
        refine and_congr_left fun _ => ?_
        rw [imp_iff_right hc, hcs, follows_append_of_break hrest]
        refine or_congr_right (iff_of_eq ?_).symm
        simp only [List.head?_eq_some_iff, eq_iff_iff, or_iff_right_iff_imp]
        rintro ⟨t, rfl⟩
        exact absurd (List.mem_cons_self ..) hl
      · rw [if_neg (by simpa using hc), List.tail_modifyHead, ih]
        exact (and_iff_right fun h => absurd h hc).symm

theorem broken_append (h : '\n' ∉ cs) : Broken width (cs ++ ds) ↔ Broken width ds := by
  induction cs with
  | nil => exact Iff.rfl
  | cons c cs ih =>
      rw [List.mem_cons, not_or] at h
      rw [List.cons_append, Broken, ih h.2]
      exact and_iff_right fun hc => absurd hc.symm h.1

theorem broken_append_of_break (hds : ds = [] ∨ ds.head? = some '\n') :
    Broken width (cs ++ ds) ↔ Broken width cs ∧ Broken width ds := by
  induction cs with
  | nil => simp [Broken]
  | cons c cs ih =>
      rw [List.cons_append, Broken, Broken, ih, follows_append_of_break hds, and_assoc]

theorem broken_append_of_closed {c : Char} (hc : c ≠ '\n' ∧ c ≠ ' ') :
    Broken width (cs ++ c :: ds) ↔ Broken width (cs ++ [c]) ∧ Broken width ds := by
  induction cs with
  | nil =>
      rw [List.nil_append, List.nil_append, Broken, Broken, Broken, and_true]
      exact and_congr_left fun _ => iff_of_true (fun h => absurd h hc.1) fun h => absurd h hc.1
  | cons d cs ih =>
      rw [List.cons_append, List.cons_append, Broken, Broken, ih, follows_append_of_closed hc,
        and_assoc]

/-- Whether a text hangs does not depend on what stands before its first line break. -/
theorem blind_hangs (width : Nat) : Blind (Hangs width) where
  empty := by simp [hangs_iff, Broken]
  append h := by rw [hangs_iff, hangs_iff, String.toList_append, broken_append h]

/-- The text is over, or goes on with a line break. -/
def Breaks (s : String) : Prop :=
  s.toList = [] ∨ s.toList.head? = some '\n'

theorem hangs_append_of_break (h : Breaks b) :
    Hangs width (a ++ b) ↔ Hangs width a ∧ Hangs width b := by
  rw [hangs_iff, hangs_iff, hangs_iff, String.toList_append, broken_append_of_break h]

/-- Whatever follows a text that ends in a character that is no blank, it hangs or not by itself. -/
theorem hangs_append_of_closed {c : Char} (hc : c ≠ '\n' ∧ c ≠ ' ')
    (ha : a.toList.getLast? = some c) : Hangs width (a ++ b) ↔ Hangs width a ∧ Hangs width b := by
  obtain ⟨cs, hcs⟩ := List.getLast?_eq_some_iff.mp ha
  rw [hangs_iff, hangs_iff, hangs_iff, String.toList_append, hcs, List.append_assoc]
  exact broken_append_of_closed hc

/-- What is put on a new line must be set in there. -/
theorem hangs_newline_append (h : List.replicate width ' ' <+: a.toList ∨ a = "") :
    Hangs width ("\n" ++ a) ↔ Hangs width a := by
  rw [hangs_iff, hangs_iff, String.toList_append, show "\n".toList = ['\n'] from rfl,
    List.singleton_append, Broken]
  refine and_iff_right fun _ => ?_
  rcases h with h | rfl
  · exact .inr (.inr h)
  · exact .inl rfl

end Lines

/-! ### Parts of an entry -/

namespace ListView

open Lines (Breaks Hangs blind_hangs hangs_append_of_break hangs_append_of_closed
  hangs_newline_append)

/-- How far the further lines of an entry are set in. -/
def width (root : Bool) : Nat :=
  if root then 2 else 4

/-- The options for a list without colours. -/
def Options.plain (pathsOnly metadata counts : Bool) : Options :=
  ⟨.plain, pathsOnly, metadata, counts⟩

variable {w : Nat} {n l r : Node} {part rest : String}

theorem hangs_spaced_append : Hangs w (spaced part ++ rest) ↔ Hangs w (part ++ rest) := by
  unfold spaced
  split
  · rename_i h
    rw [h]
  · split
    · exact Iff.rfl
    · rw [String.append_assoc]
      exact (blind_hangs w).append (by decide)

theorem newline_notMem_metadata {o : Options} (ho : o.palette = .plain) (n : Node) :
    '\n' ∉ (metadata o n).toList := by
  have hkind : '\n' ∉ n.kind.name.toList := by cases n.kind <;> decide
  have hline := Text.notMem_toString (c := '\n') (by decide) n.line
  unfold metadata
  split
  · rw [ho, Palette.metadata, Palette.paint_plain]
    simp only [String.toList_append, List.mem_append, not_or]
    exact ⟨⟨⟨⟨by decide, hline⟩, by decide⟩, hkind⟩, by decide⟩
  · exact List.not_mem_nil

theorem newline_notMem_sign (kind : ChangeKind) : '\n' ∉ (sign kind).toList := by
  cases kind <;> decide

/-- The label of an entry ends in a colon, if it is not empty. -/
theorem hangs_label_append (d : Difference) :
    Hangs w (label .plain false d ++ rest) ↔ Hangs w (d.path ++ ":") ∧ Hangs w rest := by
  rw [label, if_neg Bool.false_ne_true, change_plain]
  split
  · rename_i h
    rw [String.isEmpty_iff.mp h, String.empty_append, String.empty_append]
    exact (and_iff_right ((blind_hangs w).of_unbroken (by decide))).symm
  · exact hangs_append_of_closed (c := ':') (by decide) (by simp)

theorem breaks_join_onNewLine (indentation : String) (ls : List String) :
    Breaks (String.join (ls.map (onNewLine indentation))) := by
  cases ls with
  | nil => exact .inl rfl
  | cons l ls =>
      refine .inr ?_
      rw [List.map_cons, String.join_cons, onNewLine, String.append_assoc, String.toList_append]
      rfl

/-- Lines on lines of their own hang exactly if each of them does. -/
theorem hangs_join_onNewLine {ls : List String} {indentation : String}
    (hindent : List.replicate w ' ' <+: indentation.toList) (hbreak : '\n' ∉ indentation.toList) :
    Hangs w (String.join (ls.map (onNewLine indentation))) ↔ ∀ l ∈ ls, Hangs w l := by
  induction ls with
  | nil => exact iff_of_true ((blind_hangs w).of_unbroken List.not_mem_nil) (by simp)
  | cons l ls ih =>
      have hpad : List.replicate w ' ' <+: (Lines.pad indentation l).toList ∨
          Lines.pad indentation l = "" := by
        unfold Lines.pad
        split
        · rename_i h
          exact .inr (String.isEmpty_iff.mp h)
        · rw [String.toList_append]
          exact .inl (hindent.trans (List.prefix_append _ _))
      rw [List.map_cons, String.join_cons, List.forall_mem_cons,
        hangs_append_of_break (breaks_join_onNewLine indentation ls), ih, onNewLine,
        hangs_newline_append hpad, (blind_hangs w).pad_iff hbreak]

theorem isMultiline_eq_false {n : Node} (h : isMultiline n = false) :
    ∃ v p, n = .scalar v p ∧ ∀ s, v ≠ .literal s := by
  cases n with
  | mapping es p => cases h
  | sequence is p => cases h
  | scalar v p =>
      refine ⟨v, p, rfl, ?_⟩
      rintro s rfl
      cases h

theorem value_level {o : Options} (ho : o.palette = .plain) (root : Bool)
    (h : isMultiline n = false) : value o root n = n.text := by
  obtain ⟨v, p, rfl, hv⟩ := isMultiline_eq_false h
  simp only [value, h, Bool.false_eq_true, if_false, ho, Emitter.inline_scalar hv,
    Palette.value_plain]
  rfl

theorem prefix_valueIndent (root : Bool) :
    List.replicate (width root) ' ' <+: valueIndent.toList := by
  cases root <;> decide

/-- **A value hangs exactly if the texts in it do.** -/
theorem hangs_value {o : Options} (ho : o.palette = .plain) (root : Bool) (n : Node) :
    Hangs (width root) (value o root n) ↔ n.EachText (Hangs (width root)) := by
  cases hmulti : isMultiline n with
  | true =>
      rw [← Emitter.forall_nodeLines (blind_hangs _)]
      unfold value
      rw [hmulti, if_pos rfl, ho]
      split
      · rename_i l ls hlines
        rw [hlines, List.forall_mem_cons, hangs_append_of_break (breaks_join_onNewLine _ _),
          hangs_join_onNewLine (by decide) (by decide)]
      · exact hangs_join_onNewLine (prefix_valueIndent _) (by decide)
  | false =>
      obtain ⟨v, p, rfl, hv⟩ := isMultiline_eq_false hmulti
      rw [value_level ho root hmulti, Node.eachText_scalar hv]
      rfl

/-! ### Modifications -/

/-- The arrow points down and begins a line of its own, which it shares with the line and kind of
the right value at most. -/
def PointsDown (o : Options) (l r : Node) (parts : List String) : Prop :=
  ∃ left right, parts = [metadata o l, left, "\n    ↓", metadata o r, right] ∧ StartsLine right

/-- The arrow points to the right. -/
def PointsRight (o : Options) (l r : Node) (parts : List String) : Prop :=
  ∃ left right, parts = [metadata o l, left, "→", metadata o r, right]

/-- What takes lines of its own starts on a new line, except at the root. -/
theorem startsLine_value (o : Options) (h : isMultiline n = true) :
    StartsLine (value o false n) := by
  obtain ⟨l, ls, hlines⟩ := List.exists_cons_of_ne_nil (Emitter.nodeLines_ne_nil o.palette n)
  simp only [value, h, if_true, hlines, List.map_cons, String.join_cons, onNewLine]
  rw [String.append_assoc]
  exact StartsLine.append (by decide) _

/-- A value on a line of its own hangs exactly if the texts in it do. -/
theorem hangs_start_value {o : Options} (ho : o.palette = .plain) (root : Bool) (n : Node) :
    Hangs (width root) ("\n" ++ (if root then rootIndent else valueIndent) ++ value o root n) ↔
      n.EachText (Hangs (width root)) := by
  have hindent : List.replicate (width root) ' ' <+:
      ((if root then rootIndent else valueIndent) ++ value o root n).toList := by
    rw [String.toList_append]
    cases root <;> exact List.prefix_append _ _
  rw [String.append_assoc, hangs_newline_append (.inl hindent),
    (blind_hangs _).append (by cases root <;> decide), hangs_value ho]

/-- Where a value takes lines of its own, the arrow points down. -/
theorem modification_down {o : Options} (ho : o.palette = .plain) (root : Bool)
    (h : isMultiline l = true ∨ isMultiline r = true) :
    ∃ left right, modification o root l r =
        [metadata o l, left, "\n    ↓", metadata o r, right] ∧ StartsLine right ∧
      (Hangs (width root) left ↔ l.EachText (Hangs (width root))) ∧
      (Hangs (width root) right ↔ r.EachText (Hangs (width root))) := by
  have hstart : ∀ s, StartsLine ("\n" ++ (if root then rootIndent else valueIndent) ++ s) := by
    intro s
    rw [String.append_assoc]
    exact StartsLine.append (by decide) _
  have harrow : "\n" ++ valueIndent ++ "↓" = "\n    ↓" := by decide
  by_cases hl : isMultiline l = false ∧ root = false
  · obtain ⟨hl, rfl⟩ := hl
    have hr : isMultiline r = true := h.resolve_left (by simp [hl])
    refine ⟨_, value o false r, ?_, startsLine_value o hr, hangs_start_value ho false l,
      hangs_value ho false r⟩
    simp [modification, hl, hr, harrow]
  · by_cases hr : isMultiline r = false ∨ root = true
    · refine ⟨value o root l, _, ?_, hstart _, hangs_value ho root l, hangs_start_value ho root r⟩
      cases root <;> simp_all [modification]
    · simp only [not_or, Bool.not_eq_false, Bool.not_eq_true] at hr
      obtain ⟨hr, rfl⟩ := hr
      refine ⟨value o false l, value o false r, ?_, startsLine_value o hr, hangs_value ho false l,
        hangs_value ho false r⟩
      simp_all [modification]

theorem modification_right (o : Options) (root : Bool) (hl : isMultiline l = false)
    (hr : isMultiline r = false) :
    modification o root l r =
      [metadata o l, value o root l, "→", metadata o r, value o root r] := by
  simp [modification, hl, hr]

/-! ### Entries -/

/-- The node is a collection or a block of text, or its text goes over several lines. -/
def TakesLines (n : Node) : Prop :=
  isMultiline n = true ∨ '\n' ∈ n.text.toList

/-- The entry of a difference is laid out as it is meant to be. -/
structure KeepsLayout (o : Options) (d : Difference) : Prop where
  /-- The first line begins with the sign. -/
  sign : (sign d.kind).toList <+: (difference o d).toList
  /-- The further lines are empty or set in: by two at the root, and by four elsewhere. -/
  further : Hangs (width d.path.isEmpty) (difference o d)
  /-- With only paths an entry is one line. -/
  path : o.pathsOnly = true → '\n' ∉ (difference o d).toList
  /-- If a side of a modification takes several lines, the arrow points down. -/
  down : o.pathsOnly = false → ∀ l r, d = .modified l r → TakesLines l ∨ TakesLines r →
    PointsDown o l r (body o d)
  /-- Otherwise it points to the right, and the entry is one line. -/
  right : o.pathsOnly = false → ∀ l r, d = .modified l r → ¬(TakesLines l ∨ TakesLines r) →
    PointsRight o l r (body o d) ∧ '\n' ∉ (difference o d).toList

/-- The path and the texts of a difference leave the layout of its entry alone. -/
def Fits (o : Options) (d : Difference) : Prop :=
  if o.pathsOnly then '\n' ∉ d.path.toList
  else
    let root := d.path.isEmpty
    let hanging := Hangs (width root) (d.path ++ ":")
    match d with
    | .added n | .deleted n => hanging ∧ n.EachText (Hangs (width root))
    | .modified l r =>
      if isMultiline l || isMultiline r then
        hanging ∧ l.EachText (Hangs (width root)) ∧ r.EachText (Hangs (width root))
      else '\n' ∉ l.path.toList ∧ '\n' ∉ l.text.toList ∧ '\n' ∉ r.text.toList

variable {o : Options} {d : Difference}

theorem difference_plain (ho : o.palette = .plain) (d : Difference) :
    difference o d = sign d.kind ++
      (spaced (label .plain o.pathsOnly d) ++ String.join ((body o d).map spaced)) := by
  have hsign : sign d.kind ≠ "" := by cases d.kind <;> decide
  rw [difference_eq, ho, change_plain, joinParts_cons hsign, List.map_cons, String.join_cons]

theorem prefix_difference (ho : o.palette = .plain) (d : Difference) :
    (sign d.kind).toList <+: (difference o d).toList := by
  rw [difference_plain ho, String.toList_append]
  exact List.prefix_append _ _

/-- Below the label it is the parts of the body that matter. -/
theorem hangs_difference (ho : o.palette = .plain) (hpaths : o.pathsOnly = false) :
    Hangs w (difference o d) ↔
      Hangs w (d.path ++ ":") ∧ Hangs w (String.join ((body o d).map spaced)) := by
  rw [difference_plain ho, (blind_hangs w).append (newline_notMem_sign _), hangs_spaced_append,
    hpaths, hangs_label_append]

theorem hangs_metadata_append (ho : o.palette = .plain) (n : Node) :
    Hangs w (spaced (metadata o n) ++ rest) ↔ Hangs w rest := by
  rw [hangs_spaced_append, (blind_hangs w).append (newline_notMem_metadata ho n)]

theorem newline_notMem_spaced : '\n' ∉ (spaced part).toList ↔ '\n' ∉ part.toList := by
  unfold spaced
  split
  · rename_i h
    rw [h]
  · split
    · exact Iff.rfl
    · exact Lines.newline_notMem_append (by decide)

/-- An added or deleted value hangs below its label. -/
theorem hangs_single (ho : o.palette = .plain) (root : Bool) (n : Node) :
    Hangs (width root) (String.join ([metadata o n, value o root n].map spaced)) ↔
      n.EachText (Hangs (width root)) := by
  rw [List.map_cons, List.map_cons, List.map_nil, String.join_cons, String.join_cons,
    hangs_metadata_append ho, hangs_spaced_append]
  show Hangs _ (value o root n ++ "") ↔ _
  rw [String.append_empty, hangs_value ho]

theorem hangs_arrow (root : Bool) : Hangs (width root) "\n    ↓" := by
  have harrow : Hangs (width root) "    ↓" := (blind_hangs _).of_unbroken (by decide)
  refine (hangs_newline_append (.inl ?_)).mpr harrow
  cases root <;> decide

/-- The values above and below an arrow hang each by itself. -/
theorem hangs_down (ho : o.palette = .plain) (root : Bool) (left right : String) :
    Hangs (width root)
        (String.join ([metadata o l, left, "\n    ↓", metadata o r, right].map spaced)) ↔
      Hangs (width root) left ∧ Hangs (width root) right := by
  have hbreak : ∀ rest, Breaks (spaced "\n    ↓" ++ rest) := by
    intro rest
    refine .inr ?_
    rw [String.toList_append]
    rfl
  simp only [List.map_cons, List.map_nil, String.join_cons]
  rw [hangs_metadata_append ho, hangs_spaced_append, hangs_append_of_break (hbreak _),
    hangs_spaced_append, hangs_append_of_closed (c := '↓') (by decide) (by decide),
    hangs_metadata_append ho, hangs_spaced_append]
  show _ ∧ _ ∧ Hangs _ (right ++ "") ↔ _
  rw [String.append_empty]
  exact and_congr_right fun _ => and_iff_right (hangs_arrow root)

/-- An entry is one line if its parts are. -/
theorem newline_notMem_difference (ho : o.palette = .plain) (d : Difference) :
    '\n' ∉ (difference o d).toList ↔
      '\n' ∉ d.path.toList ∧ ∀ part ∈ body o d, '\n' ∉ part.toList := by
  have hlabel : '\n' ∉ (label .plain o.pathsOnly d).toList ↔ '\n' ∉ d.path.toList := by
    rw [label, change_plain]
    split
    · exact Iff.rfl
    · split
      · rename_i h
        rw [String.isEmpty_iff.mp h]
      · rw [String.toList_append, List.mem_append, not_or]
        exact and_iff_left (by decide)
  have hbody : '\n' ∉ (String.join ((body o d).map spaced)).toList ↔
      ∀ part ∈ body o d, '\n' ∉ part.toList := by
    generalize body o d = parts
    induction parts with
    | nil => exact iff_of_true List.not_mem_nil (by simp)
    | cons part parts ih =>
        rw [List.map_cons, String.join_cons, String.toList_append, List.mem_append, not_or, ih,
          newline_notMem_spaced, List.forall_mem_cons]
  rw [difference_plain ho, Lines.newline_notMem_append (newline_notMem_sign _),
    String.toList_append, List.mem_append, not_or, newline_notMem_spaced, hlabel, hbody]

/-- Where the arrow points down or there is none, all that can go wrong is that lines stand out. -/
theorem keepsLayout_iff_hangs (ho : o.palette = .plain) (hpaths : o.pathsOnly = false)
    (h : ∀ l r, d = .modified l r →
      (isMultiline l = true ∨ isMultiline r = true) ∧ PointsDown o l r (body o d)) :
    KeepsLayout o d ↔ Hangs (width d.path.isEmpty) (difference o d) := by
  refine ⟨KeepsLayout.further, fun hfurther => ⟨prefix_difference ho d, hfurther, ?_, ?_, ?_⟩⟩
  · exact fun h => absurd (hpaths.symm.trans h) (by decide)
  · exact fun _ l r hd _ => (h l r hd).2
  · exact fun _ l r hd hnot => absurd ((h l r hd).1.imp .inl .inl) hnot

theorem keepsLayout_modified_iff (ho : o.palette = .plain) (hpaths : o.pathsOnly = false)
    (hl : isMultiline l = false) (hr : isMultiline r = false) :
    KeepsLayout o (.modified l r) ↔
      '\n' ∉ l.path.toList ∧ '\n' ∉ l.text.toList ∧ '\n' ∉ r.text.toList := by
  have hbody : body o (.modified l r) = [metadata o l, l.text, "→", metadata o r, r.text] := by
    rw [body, hpaths, if_neg Bool.false_ne_true, modification_right o _ hl hr, value_level ho _ hl,
      value_level ho _ hr]
  have hline : '\n' ∉ (difference o (.modified l r)).toList ↔
      '\n' ∉ l.path.toList ∧ '\n' ∉ l.text.toList ∧ '\n' ∉ r.text.toList := by
    rw [newline_notMem_difference ho, hbody]
    simp only [List.forall_mem_cons, newline_notMem_metadata ho]
    simp [Difference.path, Difference.anchor]
  have htakes : TakesLines l ∨ TakesLines r ↔ '\n' ∈ l.text.toList ∨ '\n' ∈ r.text.toList := by
    simp [TakesLines, hl, hr]
  constructor
  · intro h
    by_cases hlines : TakesLines l ∨ TakesLines r
    · -- the arrow would have to point down
      obtain ⟨left, right, heq, -⟩ := h.down hpaths l r rfl hlines
      rw [hbody] at heq
      simp at heq
    · exact hline.mp (h.right hpaths l r rfl hlines).2
  · intro h
    have hone := hline.mpr h
    have hlines : ¬(TakesLines l ∨ TakesLines r) := by
      rw [htakes, not_or]
      exact h.2
    exact ⟨prefix_difference ho _, (blind_hangs _).of_unbroken hone, fun _ => hone,
      fun _ _ _ heq hnot => by cases heq; exact absurd hnot hlines,
      fun _ _ _ heq _ => by cases heq; exact ⟨⟨_, _, hbody⟩, hone⟩⟩

/-- **An entry keeps its layout exactly if its path and its texts fit.** -/
theorem keepsLayout_iff (ho : o.palette = .plain) (d : Difference) :
    KeepsLayout o d ↔ Fits o d := by
  cases hpaths : o.pathsOnly with
  | true =>
      have hbody : body o d = [] := by simp [body, hpaths]
      have hline := newline_notMem_difference ho d
      rw [hbody] at hline
      rw [Fits, hpaths, if_pos rfl]
      constructor
      · exact fun h => (hline.mp (h.path hpaths)).1
      · intro h
        have hone := hline.mpr ⟨h, by simp⟩
        exact ⟨prefix_difference ho d, (blind_hangs _).of_unbroken hone, fun _ => hone,
          fun hnot => absurd (hpaths.symm.trans hnot) (by decide),
          fun hnot => absurd (hpaths.symm.trans hnot) (by decide)⟩
  | false =>
      rw [Fits, hpaths, if_neg Bool.false_ne_true]
      have hsingle : ∀ {n : Node}, body o d = [metadata o n, value o d.path.isEmpty n] →
          (∀ l r, d ≠ .modified l r) → (KeepsLayout o d ↔
            Hangs (width d.path.isEmpty) (d.path ++ ":") ∧
              n.EachText (Hangs (width d.path.isEmpty))) := by
        intro n hbody hne
        rw [keepsLayout_iff_hangs ho hpaths fun l r hd => absurd hd (hne l r),
          hangs_difference ho hpaths, hbody, hangs_single ho]
      cases d with
      | added n => exact hsingle (by rw [body, hpaths]; rfl) (by simp)
      | deleted n => exact hsingle (by rw [body, hpaths]; rfl) (by simp)
      | modified l r =>
          by_cases hmulti : isMultiline l = true ∨ isMultiline r = true
          · obtain ⟨left, right, hparts, hstarts, hleft, hright⟩ :=
              modification_down ho l.path.isEmpty hmulti
            have hbody : body o (.modified l r) =
                [metadata o l, left, "\n    ↓", metadata o r, right] := by
              rw [body, hpaths]
              exact hparts
            rw [keepsLayout_iff_hangs ho hpaths fun l' r' heq => by
                cases heq; exact ⟨hmulti, left, right, hbody, hstarts⟩,
              hangs_difference ho hpaths, hbody]
            have hor : (isMultiline l || isMultiline r) = true := by simpa using hmulti
            simp only [hor, if_true]
            exact and_congr_right fun _ =>
              (hangs_down ho _ left right).trans (and_congr hleft hright)
          · simp only [not_or, Bool.not_eq_true] at hmulti
            rw [keepsLayout_modified_iff ho hpaths hmulti.1 hmulti.2]
            simp [hmulti.1, hmulti.2]

/-! ### Counting lines -/

/-- The line begins with the sign of an entry. -/
def beginsEntry (line : String) : Bool :=
  line.toList.head?.any fun c => c == '+' || c == '-' || c == '~'

theorem not_beginsEntry_of_setIn {line : String} (hw : w ≠ 0) (h : Lines.SetIn w line.toList) :
    beginsEntry line = false := by
  rcases h with h | h
  · rw [beginsEntry, h]
    rfl
  · obtain ⟨w, rfl⟩ := Nat.exists_eq_succ_of_ne_zero hw
    obtain ⟨rest, hrest⟩ := h
    rw [beginsEntry, ← hrest, List.replicate_succ]
    rfl

theorem exists_sign (kind : ChangeKind) :
    ∃ c, (sign kind).toList = [c] ∧ c ≠ '\n' ∧ (c == '+' || c == '-' || c == '~') = true := by
  cases kind with
  | added => exact ⟨'+', rfl, by decide, rfl⟩
  | deleted => exact ⟨'-', rfl, by decide, rfl⟩
  | modified => exact ⟨'~', rfl, by decide, rfl⟩

/-- Of the lines of an entry that keeps its layout the first one begins with a sign. -/
theorem KeepsLayout.countP_lines (h : KeepsLayout o d) :
    (Lines.ofText (difference o d)).countP beginsEntry = 1 := by
  obtain ⟨l, ls, rest, hsplit, htext, hl, hrest⟩ :=
    Lines.exists_firstLine (difference o d).toList
  have hsign := h.sign
  have hfurther := h.further
  rw [Lines.Hangs] at hfurther
  rw [Lines.ofText, hsplit, List.map_cons] at hfurther ⊢
  have hfirst : beginsEntry (String.ofList l) = true := by
    obtain ⟨c, hc, hbreak, hentry⟩ := exists_sign d.kind
    obtain ⟨more, hmore⟩ := hsign
    rw [hc, htext] at hmore
    cases l with
    | nil =>
        rw [List.nil_append] at hmore
        rw [← hmore] at hrest
        simp [hbreak] at hrest
    | cons e l =>
        rw [beginsEntry, String.toList_ofList, ← (List.cons.inj hmore).1]
        exact hentry
  have hnone : (ls.map String.ofList).countP beginsEntry = 0 := by
    rw [List.countP_eq_zero]
    intro line hline
    have hwidth : width d.path.isEmpty ≠ 0 := by cases d.path.isEmpty <;> decide
    simp [not_beginsEntry_of_setIn hwidth (hfurther line hline)]
  rw [List.countP_cons_of_pos hfirst, hnone]

theorem ofText_append_newline (a b : String) :
    Lines.ofText (a ++ "\n" ++ b) = Lines.ofText a ++ Lines.ofText b := by
  rw [Lines.ofText, Lines.ofText, Lines.ofText, ← List.map_append, String.toList_append,
    String.toList_append, List.append_assoc]
  exact congrArg _ (List.splitOn_append_cons_self _ _)

theorem ofText_intercalate_flatMap {ls : List String} (h : ls ≠ []) :
    Lines.ofText ("\n".intercalate ls) = ls.flatMap Lines.ofText := by
  induction ls with
  | nil => exact absurd rfl h
  | cons l ls ih =>
      cases ls with
      | nil => simp
      | cons m ls =>
          rw [String.intercalate_cons_cons, ofText_append_newline, ih (List.cons_ne_nil _ _)]
          rfl

/-- The counts are one line, which begins with a number. -/
theorem countP_counts (c : Counts) : (Lines.ofText c.text).countP beginsEntry = 0 := by
  have hdigits := fun n => Text.notMem_toString (c := '\n') (by decide) n
  have hline : '\n' ∉ c.text.toList := by
    simp only [Counts.text, String.toList_append, List.mem_append, not_or]
    exact ⟨⟨⟨⟨⟨hdigits _, by decide⟩, hdigits _⟩, by decide⟩, hdigits _⟩, by decide⟩
  obtain ⟨e, es, he⟩ : ∃ e es, (toString c.added).toList = e :: es :=
    List.exists_cons_of_ne_nil (by simp)
  have hdigit : e.isDigit = true := by
    by_contra h
    exact Text.notMem_toString (by simpa using h) c.added (he ▸ List.mem_cons_self ..)
  have hbegins : beginsEntry c.text = false := by
    simp only [beginsEntry, Counts.text, String.toList_append, he, List.cons_append,
      List.head?_cons, Option.any_some, Bool.or_eq_false_iff, beq_eq_false_iff_ne]
    exact ⟨⟨Text.ne_of_isDigit hdigit rfl, Text.ne_of_isDigit hdigit rfl⟩,
      Text.ne_of_isDigit hdigit rfl⟩
  rw [Lines.ofText, List.splitOn_eq_singleton hline]
  simp [hbegins]

/-- **The entries of a document can be counted by their signs**, if they keep their layout. -/
theorem countP_document (doc : DocumentDiff) (h : ∀ d ∈ doc.differences, KeepsLayout o d) :
    (Lines.ofText (document o doc)).countP beginsEntry = doc.differences.length := by
  have hbody : (Lines.ofText ("\n".intercalate (doc.differences.map (difference o)))).countP
      beginsEntry = doc.differences.length := by
    generalize doc.differences = ds at h
    by_cases hds : ds = []
    · subst hds
      rfl
    · rw [ofText_intercalate_flatMap (by simpa using hds)]
      clear hds
      induction ds with
      | nil => rfl
      | cons d ds ih =>
          rw [List.forall_mem_cons] at h
          rw [List.map_cons, List.flatMap_cons, List.countP_append, h.1.countP_lines, ih h.2,
            List.length_cons, Nat.add_comm]
  unfold document
  split
  · rw [ofText_append_newline, List.countP_append, countP_counts, hbody, Nat.zero_add]
  · exact hbody

/-! ### The view -/

/-- What is not over several lines hangs. -/
theorem eachText_hangs (w : Nat) (h : ¬n.SpansLines) : n.EachText (Hangs w) := by
  rw [← n.eachText_unbroken] at h
  induction h with
  | mapping _ ih => exact .mapping ih
  | sequence _ ih => exact .sequence ih
  | literal s p => exact .literal s p
  | scalar hv h => exact .scalar hv ((blind_hangs w).of_unbroken h)

theorem newline_notMem_text (hmulti : isMultiline n = false) (h : ¬n.SpansLines) :
    '\n' ∉ n.text.toList := by
  obtain ⟨v, p, rfl, hv⟩ := isMultiline_eq_false hmulti
  exact (Node.not_spansLines_scalar hv).mp h

/-- No line break comes in with the path or with the text of a scalar. -/
def Unbroken (d : Difference) : Prop :=
  '\n' ∉ d.path.toList ∧ ∀ n, d.left? = some n ∨ d.right? = some n → ¬n.SpansLines

theorem Unbroken.fits (h : Unbroken d) (o : Options) : Fits o d := by
  obtain ⟨hpath, hsides⟩ := h
  unfold Fits
  split
  · exact hpath
  · have hlabel : Hangs (width d.path.isEmpty) (d.path ++ ":") := by
      refine (blind_hangs _).of_unbroken ?_
      rw [String.toList_append, List.mem_append, not_or]
      exact ⟨hpath, by decide⟩
    cases d with
    | added n => exact ⟨hlabel, eachText_hangs _ (hsides n (.inr rfl))⟩
    | deleted n => exact ⟨hlabel, eachText_hangs _ (hsides n (.inl rfl))⟩
    | modified l r =>
        have hl := hsides l (.inl rfl)
        have hr := hsides r (.inr rfl)
        dsimp only
        split
        · exact ⟨hlabel, eachText_hangs _ hl, eachText_hangs _ hr⟩
        · rename_i hmulti
          simp only [Bool.or_eq_true, not_or, Bool.not_eq_true] at hmulti
          exact ⟨hpath, newline_notMem_text hmulti.1 hl, newline_notMem_text hmulti.2 hr⟩

/-- **An entry keeps its layout exactly if its path and its texts fit**, and if all entries of a
document do, they can be counted by the lines that begin with a sign.  It suffices that no line
break comes in with a path or with the text of a scalar that is no block of text. -/
theorem entries_keep_layout_iff (pathsOnly metadata counts : Bool) (doc : DocumentDiff) :
    (∀ d ∈ doc.differences, KeepsLayout (.plain pathsOnly metadata counts) d ↔
      Fits (.plain pathsOnly metadata counts) d) ∧
    ((∀ d ∈ doc.differences, Fits (.plain pathsOnly metadata counts) d) →
      (Lines.ofText (document (.plain pathsOnly metadata counts) doc)).countP beginsEntry =
        doc.differences.length) ∧
    ((∀ d ∈ doc.differences, Unbroken d) →
      ∀ d ∈ doc.differences, Fits (.plain pathsOnly metadata counts) d) := by
  have hiff := keepsLayout_iff (o := .plain pathsOnly metadata counts) rfl
  exact ⟨fun d _ => hiff d, fun h => countP_document doc fun d hd => (hiff d).mpr (h d hd),
    fun h d hd => (h d hd).fits _⟩

/-- A block of text that is replaced by a word, and a list that is added. -/
theorem entries_keep_layout_of_block :
    ∃ doc : DocumentDiff,
      document (.plain false true false) doc =
        "~ .k: [line:1 <Literal>]\n    |\n      x\n    ↓ [line:1 <String>]\n    y\n" ++
          "+ .m: [line:2 <Sequence>]\n    - 1\n    - 2" ∧
      (∀ d ∈ doc.differences, Unbroken d ∧ KeepsLayout (.plain false true false) d) ∧
      (Lines.ofText (document (.plain false true false) doc)).countP beginsEntry = 2 := by
  let x : Node := .scalar (.literal "x\n") ⟨"x\n", 1, 4, ".k"⟩
  let y : Node := .scalar (.string "y") ⟨"y", 1, 4, ".k"⟩
  let one : Node := .scalar (.integer 1) ⟨"1", 2, 5, ".m[0]"⟩
  let two : Node := .scalar (.integer 2) ⟨"2", 2, 8, ".m[1]"⟩
  let list : Node := .sequence [one, two] ⟨"[", 2, 4, ".m"⟩
  let doc : DocumentDiff := ⟨[.modified x y, .added list]⟩
  have hy : ¬y.SpansLines := (Node.not_spansLines_scalar (by simp)).mpr (by decide)
  have hlist : ¬list.SpansLines := by
    rw [Node.not_spansLines_sequence, List.forall_mem_cons, List.forall_mem_singleton]
    exact ⟨(Node.not_spansLines_scalar (by simp)).mpr (by decide),
      (Node.not_spansLines_scalar (by simp)).mpr (by decide)⟩
  have hdoc : ∀ d ∈ doc.differences, Unbroken d := by
    rw [List.forall_mem_cons, List.forall_mem_singleton]
    refine ⟨⟨by decide, ?_⟩, ⟨by decide, ?_⟩⟩
    · rintro n (h | h) <;> cases h
      · exact Node.not_spansLines_literal _
      · exact hy
    · rintro n (h | h) <;> cases h
      exact hlist
  obtain ⟨hiff, hcount, hfits⟩ := entries_keep_layout_iff false true false doc
  refine ⟨doc, by decide +kernel, fun d hd => ⟨hdoc d hd, (hiff d hd).mpr (hfits hdoc d hd)⟩,
    hcount (hfits hdoc)⟩

/-- The second line of a plain scalar stands out, and the arrow follows on it. -/
theorem text_stands_out :
    ∃ left right, Stream.ofText "a: x\n\n  y\n" = .ok left ∧ Stream.ofText "a: z\n" = .ok right ∧
      ∃ doc ∈ (StreamDiff.ofStreams .positional left right).documents,
        document (.plain false false false) doc = "~ .a: x\ny → z" ∧
        ∃ d ∈ doc.differences, ¬KeepsLayout (.plain false false false) d := by
  obtain ⟨left, right, -, -, hleft, hright, -, -, htest⟩ :=
    Stream.exists_of_firstDocuments "a: x\n\n  y\n" "a: z\n"
      (fun left right _ _ => (StreamDiff.ofStreams .positional left right).documents.any fun doc =>
        document (.plain false false false) doc == "~ .a: x\ny → z" &&
          doc.differences.any fun d => d.path == ".a" &&
            difference (.plain false false false) d == "~ .a: x\ny → z") (by decide +kernel)
  obtain ⟨doc, hdoc, htest⟩ := List.any_eq_true.mp htest
  rw [Bool.and_eq_true, beq_iff_eq] at htest
  obtain ⟨d, hd, hentry⟩ := List.any_eq_true.mp htest.2
  rw [Bool.and_eq_true, beq_iff_eq, beq_iff_eq] at hentry
  refine ⟨left, right, hleft, hright, doc, hdoc, htest.1, d, hd, fun h => ?_⟩
  have hfurther := h.further
  rw [hentry.1, hentry.2] at hfurther
  exact absurd hfurther (by decide)

end ListView

end YamlDelta
