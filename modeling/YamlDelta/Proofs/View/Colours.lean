/-
Colours change nothing but the escape codes.

The unified view lays out plain lines and paints each as a whole, so it is enough that no
line has codes of its own.  The list view joins parts that are painted already, and puts a
space before a part unless it begins with a line feed.  With colours a part begins with a
code instead.  Values are safe from that: one that takes several lines begins with the line
feed of its own layout, which is not painted, and the texts of scalars do not begin with one.
The path is left, and there a space is put after the sign that is not there without colours.

So the list view with colours is never shorter than the plain one, codes aside, and the same
exactly if no path begins with a line feed.  No path of a document that was read does, as it
begins with a dot or a bracket.
-/
import YamlDelta.Proofs.View.Tinting
import YamlDelta.View.List

namespace YamlDelta

open Palette (escape Erases Tints erase erases_self erases_intercalate escape_notMem_append
  escape_notMem_toString tints_self tints_join tints_paint tints_value)

/-! ### The merged document -/

namespace Unified

/-- The lines have no codes of their own. -/
def CodeFree (ls : List Line) : Prop :=
  ∀ l ∈ ls, escape ∉ l.content.toList

variable {ls ms : List Line} {ds : List Difference} {l r : Node}
  {parts : Node → Node → Option (List Line)}

theorem codeFree_nil : CodeFree [] := fun _ h => nomatch h

theorem CodeFree.append (h : CodeFree ls) (h' : CodeFree ms) : CodeFree (ls ++ ms) :=
  List.forall_mem_append.mpr ⟨h, h'⟩

theorem codeFree_flatMap {α : Type} {as : List α} {f : α → List Line}
    (h : ∀ a ∈ as, CodeFree (f a)) : CodeFree (as.flatMap f) := by
  intro l hl
  obtain ⟨a, ha, hl⟩ := List.mem_flatMap.mp hl
  exact h a ha l hl

theorem codeFree_annotate (status : Status) {lines lines' : List String}
    (h : List.Forall₂ Tints lines' lines) : CodeFree (annotate status lines) := by
  intro l hl
  obtain ⟨line, hline, rfl⟩ := List.mem_map.mp hl
  exact Lines.plain_of_mem h hline

theorem CodeFree.relayout {layout : List String → List String}
    (hlayout : ∀ {as bs}, List.Forall₂ Tints as bs → List.Forall₂ Tints (layout as) (layout bs))
    (h : CodeFree ls) : CodeFree (relayout layout ls) := by
  have hcontents := Lines.tints_same (List.forall_mem_map.mpr h)
  intro l hl
  obtain ⟨x, hx, rfl⟩ := List.mem_map.mp hl
  exact Lines.plain_of_mem (hlayout hcontents) (List.of_mem_zip hx).2

/-- Parts of nodes without codes are merged into lines without. -/
def MergesCodeFree (parts : Node → Node → Option (List Line)) : Prop :=
  ∀ {l r : Node} {lines : List Line}, l.CodeFree → r.CodeFree → parts l r = some lines →
    CodeFree lines

theorem codeFree_changed? {write : Writer} {lines : List Line} {ls' rs' : List String}
    (hl : List.Forall₂ Tints ls' (write l)) (hr : List.Forall₂ Tints rs' (write r))
    (h : changed? ds write l r = some lines) : CodeFree lines := by
  obtain ⟨d, -, rfl⟩ := Option.map_eq_some_iff.mp h
  cases d with
  | added n => exact codeFree_annotate .added hr
  | deleted n => exact codeFree_annotate .removed hl
  | modified n m => exact (codeFree_annotate .removed hl).append (codeFree_annotate .added hr)

theorem codeFree_nodes (hparts : MergesCodeFree parts) (hl : l.CodeFree) (hr : r.CodeFree) :
    CodeFree (nodes ds parts l r) := by
  have hleft := Emitter.tints_nodeLines .plain hl
  have hright := Emitter.tints_nodeLines .plain hr
  unfold nodes
  split
  · rename_i hchanged
    exact codeFree_changed? hleft hright hchanged
  · split
    · rename_i hsome
      exact hparts hl hr hsome
    · exact codeFree_annotate .context hright

theorem codeFree_entry (hparts : MergesCodeFree parts) {key : String} {a b : Option Node}
    (ha : ∀ n, a = some n → escape ∉ key.toList ∧ n.CodeFree)
    (hb : ∀ n, b = some n → escape ∉ key.toList ∧ n.CodeFree) :
    CodeFree (entry ds parts key a b) := by
  have hwrite : ∀ {n : Node}, escape ∉ key.toList ∧ n.CodeFree → List.Forall₂ Tints
      (Emitter.entryLines .plain key n) (Emitter.entryLines .plain key n) :=
    fun h => Emitter.tints_entryLines .plain h.1 h.2
  cases a with
  | none =>
      cases b with
      | none => exact codeFree_nil
      | some r => exact codeFree_annotate .added (hwrite (hb r rfl))
  | some l =>
      cases b with
      | none => exact codeFree_annotate .removed (hwrite (ha l rfl))
      | some r =>
          rw [entry]
          split
          · rename_i hchanged
            exact codeFree_changed? (hwrite (ha l rfl)) (hwrite (hb r rfl)) hchanged
          · split
            · have hnodes : CodeFree (nodes ds parts l r) :=
                codeFree_nodes hparts (ha l rfl).2 (hb r rfl).2
              have hkey := Emitter.tints_keyLine .plain (hb r rfl).1
              exact List.forall_mem_cons.mpr
                ⟨hkey.plain, hnodes.relayout (Lines.tints_indent 2)⟩
            · exact codeFree_annotate .context (hwrite (hb r rfl))

theorem codeFree_mappings (hparts : MergesCodeFree parts) {ls rs : List (String × Node)}
    (hl : ∀ e ∈ ls, escape ∉ e.1.toList ∧ e.2.CodeFree)
    (hr : ∀ e ∈ rs, escape ∉ e.1.toList ∧ e.2.CodeFree) : CodeFree (mappings ds parts ls rs) :=
  codeFree_flatMap fun k _ =>
    codeFree_entry hparts (fun n hn => hl (k, n) (Node.mem_of_lookup hn))
      fun n hn => hr (k, n) (Node.mem_of_lookup hn)

theorem codeFree_item (hparts : MergesCodeFree parts) (hl : l.CodeFree) (hr : r.CodeFree) :
    CodeFree (item ds parts l r) := by
  have hleft := Emitter.tints_itemLines .plain hl
  have hright := Emitter.tints_itemLines .plain hr
  unfold item
  dsimp only
  split
  · exact (codeFree_annotate .removed hleft).append (codeFree_annotate .context hright)
  · exact codeFree_annotate .added hright
  · exact (codeFree_annotate .removed hleft).append (codeFree_annotate .added hright)
  · split
    · split
      · rename_i hsome
        exact (hparts hl hr hsome).relayout Lines.tints_bullet
      · exact codeFree_annotate .context hright
    · exact codeFree_annotate .context hright

theorem codeFree_sequences (hparts : MergesCodeFree parts) {ls rs : List Node}
    (hl : ∀ n ∈ ls, n.CodeFree) (hr : ∀ n ∈ rs, n.CodeFree) :
    CodeFree (sequences ds parts ls rs) := by
  have hwhole : ∀ (status : Status) (ns : List Node), (∀ n ∈ ns, n.CodeFree) →
      CodeFree (ns.flatMap fun n => annotate status (Emitter.itemLines .plain n)) :=
    fun status ns hns => codeFree_flatMap fun n hn =>
      codeFree_annotate status (Emitter.tints_itemLines .plain (hns n hn))
  induction ls generalizing rs with
  | nil =>
      cases rs with
      | nil => exact hwhole .removed [] hl
      | cons r rs => exact hwhole .added (r :: rs) hr
  | cons l ls ih =>
      cases rs with
      | nil => exact hwhole .removed (l :: ls) hl
      | cons r rs =>
          rw [List.forall_mem_cons] at hl hr
          exact (codeFree_item hparts hl.1 hr.1).append (ih hl.2 hr.2)

/-- To any depth, parts of nodes without codes are merged into lines without. -/
theorem mergesCodeFree_partsWithin (ds : List Difference) (depth : Nat) :
    MergesCodeFree (partsWithin ds depth) := by
  induction depth with
  | zero =>
      intro l r lines _ _ h
      cases h
  | succ depth ih =>
      intro l r lines hl hr h
      cases hl with
      | mapping hlkeys hl =>
          cases hr with
          | mapping hrkeys hr =>
              cases h
              exact codeFree_mappings ih (fun e he => ⟨hlkeys e he, hl e he⟩)
                fun e he => ⟨hrkeys e he, hr e he⟩
          | sequence _ => cases h
          | literal _ => cases h
          | scalar _ _ => cases h
      | sequence hl =>
          cases hr with
          | sequence hr =>
              cases h
              exact codeFree_sequences ih hl hr
          | mapping _ _ => cases h
          | literal _ => cases h
          | scalar _ _ => cases h
      | literal _ => cases h
      | scalar _ _ => cases h

variable {left right : Stream}

/-- The merged document of nodes without codes has none, whatever is said to differ. -/
theorem codeFree_documentAt (d : StreamDiff) {i : Nat}
    (h : ∀ n, left.document i = some n ∨ right.document i = some n → n.CodeFree) :
    CodeFree (documentAt left right d i) := by
  unfold documentAt
  cases hl : left.document i with
  | none =>
      cases hr : right.document i with
      | none => exact codeFree_nil
      | some r =>
          exact codeFree_annotate .added (Emitter.tints_nodeLines .plain (h r (.inr hr)))
  | some l =>
      have hl' := h l (.inl hl)
      cases hr : right.document i with
      | none => exact codeFree_annotate .removed (Emitter.tints_nodeLines .plain hl')
      | some r => exact codeFree_nodes (mergesCodeFree_partsWithin _ _) hl' (h r (.inr hr))

theorem tints_render_line (p : Palette) {line : Line} (h : escape ∉ line.content.toList) :
    Tints (line.render p) (line.render .plain) := by
  unfold Line.render
  cases line.status with
  | context => exact tints_self (escape_notMem_append (by decide) h)
  | added => exact tints_paint p .green (escape_notMem_append (by decide) h)
  | removed => exact tints_paint p .red (escape_notMem_append (by decide) h)

/-- **The unified view with colours is the plain one with colours in it.** -/
theorem erases_render (p : Palette) (d : StreamDiff)
    (h : ∀ i n, left.document i = some n ∨ right.document i = some n → n.CodeFree) :
    Erases (render p left right d) (render .plain left right d) := by
  have hlines : List.Forall₂ Tints (lines p left right d) (lines .plain left right d) := by
    refine Lines.tints_flatMap fun i _ => List.rel_append (R := Tints) ?_ ?_
    · split
      · exact .nil
      · exact .cons (tints_self (by decide)) .nil
    · rw [List.forall₂_map_left_iff, List.forall₂_map_right_iff]
      exact List.forall₂_same.mpr fun l hl => tints_render_line p (codeFree_documentAt d (h i) l hl)
  exact erases_intercalate (by decide) (hlines.imp fun _ _ h => h.erases)

end Unified

/-! ### The list view -/

namespace ListView

/-- The text begins with a line feed. -/
def StartsLine (s : String) : Prop :=
  s.toList.head? = some '\n'

instance : DecidablePred StartsLine :=
  fun s => inferInstanceAs (Decidable (s.toList.head? = some '\n'))

/-- A scalar, other than a block of text, with a text that begins with a line feed. -/
def BeginsWithBreak (n : Node) : Prop :=
  ∃ v p, n = .scalar v p ∧ (∀ s, v ≠ .literal s) ∧ StartsLine p.text

theorem beginsWithBreak_scalar {v : Scalar} {p : Place} :
    BeginsWithBreak (.scalar v p) ↔ (∀ s, v ≠ .literal s) ∧ StartsLine p.text := by
  constructor
  · rintro ⟨v, p, heq, h⟩
    cases heq
    exact h
  · exact fun h => ⟨v, p, rfl, h⟩

theorem not_startsLine_empty : ¬StartsLine "" := by decide

theorem StartsLine.append {a : String} (h : StartsLine a) (b : String) : StartsLine (a ++ b) := by
  rw [StartsLine, String.toList_append, List.head?_append, show a.toList.head? = _ from h]
  rfl

theorem startsLine_append {a : String} (h : a ≠ "") (b : String) :
    StartsLine (a ++ b) ↔ StartsLine a := by
  obtain ⟨c, cs, hcs⟩ := List.exists_cons_of_ne_nil (mt String.toList_eq_nil_iff.mp h)
  rw [StartsLine, StartsLine, String.toList_append, hcs]
  exact Iff.rfl

/-! #### Joining parts -/

/-- What a part puts behind the parts before it. -/
def spaced (part : String) : String :=
  if part = "" then "" else if StartsLine part then part else " " ++ part

theorem joinPart_of_ne_empty {out : String} (h : out ≠ "") (part : String) :
    joinPart out part = out ++ spaced part := by
  unfold joinPart spaced
  by_cases hpart : part = ""
  · simp [hpart]
  · by_cases hstarts : StartsLine part
    · have hhead : (part.toList.head? == some '\n') = true := by simpa [StartsLine] using hstarts
      simp [hpart, hstarts, hhead]
    · have hhead : (part.toList.head? == some '\n') = false := by simpa [StartsLine] using hstarts
      simp [hpart, hstarts, hhead, h, String.append_assoc]

theorem foldl_joinPart {out : String} (h : out ≠ "") (parts : List String) :
    parts.foldl joinPart out = out ++ String.join (parts.map spaced) := by
  induction parts generalizing out with
  | nil => simp
  | cons part parts ih =>
      have hne : out ++ spaced part ≠ "" := fun heq => h (String.append_eq_empty_iff.mp heq).1
      rw [List.foldl_cons, joinPart_of_ne_empty h, ih hne, List.map_cons, String.join_cons,
        String.append_assoc]

theorem joinParts_cons {first : String} (h : first ≠ "") (rest : List String) :
    joinParts (first :: rest) = first ++ String.join (rest.map spaced) := by
  have hfirst : joinPart "" first = first := by simp [joinPart]
  rw [joinParts, List.foldl_cons, hfirst, foldl_joinPart h]

/-- A part with colours, which begins with a line feed if the part does. -/
structure Part (a b : String) : Prop extends Tints a b where
  starts : StartsLine b → StartsLine a

variable {a b a' b' : String} {as bs : List String}

theorem not_startsLine_of_tints (h : Tints a b) (hb : ¬StartsLine b) : ¬StartsLine a :=
  fun ha => hb (h.head?_eq (by decide) ha)

theorem part_of_not_startsLine (h : Tints a b) (hb : ¬StartsLine b) : Part a b :=
  ⟨h, fun hb' => absurd hb' hb⟩

theorem Part.tints_spaced (h : Part a b) : Tints (spaced a) (spaced b) := by
  unfold spaced
  by_cases hb : b = ""
  · rw [if_pos hb, if_pos (h.empty_iff.mpr hb)]
    exact tints_self (by decide)
  · rw [if_neg hb, if_neg (mt h.empty_iff.mp hb)]
    by_cases hstarts : StartsLine b
    · rw [if_pos hstarts, if_pos (h.starts hstarts)]
      exact h.toTints
    · rw [if_neg hstarts, if_neg (not_startsLine_of_tints h.toTints hstarts)]
      exact (tints_self (by decide)).append h.toTints

/-! #### Spaces that are not there without colours -/

/-- Codes aside, the first text is the second if `P`, and longer otherwise. -/
structure ErasesIff (P : Prop) (a b : String) : Prop where
  erases : Erases a (erase a)
  length_le : b.length ≤ (erase a).length
  of_length_eq : (erase a).length = b.length → P
  erase_eq : P → erase a = b

variable {P Q : Prop}

theorem ErasesIff.erase_eq_iff (h : ErasesIff P a b) : erase a = b ↔ P :=
  ⟨fun heq => h.of_length_eq (congrArg String.length heq), h.erase_eq⟩

theorem ErasesIff.congr (h : ErasesIff P a b) (hPQ : P ↔ Q) : ErasesIff Q a b :=
  ⟨h.erases, h.length_le, fun hlength => hPQ.mp (h.of_length_eq hlength),
    fun hQ => h.erase_eq (hPQ.mpr hQ)⟩

theorem erasesIff_of_erases (h : Erases a b) (hP : P) : ErasesIff P a b where
  erases := h.erase_eq.symm ▸ h
  length_le := Nat.le_of_eq (congrArg String.length h.erase_eq.symm)
  of_length_eq _ := hP
  erase_eq _ := h.erase_eq

theorem ErasesIff.append (h : ErasesIff P a b) (h' : ErasesIff Q a' b') :
    ErasesIff (P ∧ Q) (a ++ a') (b ++ b') := by
  have heq : erase (a ++ a') = erase a ++ erase a' := (h.erases.append h'.erases).erase_eq
  have hle := h.length_le
  have hle' := h'.length_le
  constructor
  · rw [heq]
    exact h.erases.append h'.erases
  · rw [heq, String.length_append, String.length_append]
    omega
  · intro hlength
    rw [heq, String.length_append, String.length_append] at hlength
    exact ⟨h.of_length_eq (by omega), h'.of_length_eq (by omega)⟩
  · rintro ⟨hP, hQ⟩
    rw [heq, h.erase_eq hP, h'.erase_eq hQ]

theorem erasesIff_intercalate {α : Type} {as : List α} {f g : α → String} {P : α → Prop}
    {sep : String} (hsep : escape ∉ sep.toList) (h : ∀ x ∈ as, ErasesIff (P x) (f x) (g x)) :
    ErasesIff (∀ x ∈ as, P x) (sep.intercalate (as.map f)) (sep.intercalate (as.map g)) := by
  induction as with
  | nil => exact erasesIff_of_erases (fun _ => rfl) (by simp)
  | cons x as ih =>
      have hx := h x (List.mem_cons_self ..)
      have ih := ih fun y hy => h y (List.mem_cons_of_mem _ hy)
      cases as with
      | nil => simpa using hx
      | cons y as =>
          simp only [List.map_cons, String.intercalate_cons_cons] at ih ⊢
          have hboth := (hx.append (erasesIff_of_erases (erases_self hsep) trivial)).append ih
          refine hboth.congr ?_
          rw [and_true]
          exact List.forall_mem_cons.symm

/-- Behind other parts, what begins with a code has a space before it. -/
theorem erasesIff_spaced (h : Tints a b) (ha : ¬StartsLine a) :
    ErasesIff (¬StartsLine b) (spaced a) (spaced b) := by
  unfold spaced
  by_cases hb : b = ""
  · rw [if_pos hb, if_pos (h.empty_iff.mpr hb), hb]
    exact erasesIff_of_erases (fun _ => rfl) not_startsLine_empty
  · rw [if_neg hb, if_neg (mt h.empty_iff.mp hb), if_neg ha]
    have herases : Erases (" " ++ a) (" " ++ b) := (erases_self (by decide)).append h.erases
    by_cases hstarts : StartsLine b
    · rw [if_pos hstarts]
      have hlength : (erase (" " ++ a)).length = b.length + 1 := by
        rw [herases.erase_eq, String.length_append, Nat.add_comm]
        rfl
      refine ⟨herases.erase_eq.symm ▸ herases, by omega, fun _ => by omega, ?_⟩
      exact fun hnot => absurd hstarts hnot
    · rw [if_neg hstarts]
      exact erasesIff_of_erases herases hstarts

/-- A space too many comes with the label only, if it begins with a line feed but for its code. -/
theorem erasesIff_joinParts {sign sign' : String} (hsign : Tints sign sign') (hne : sign' ≠ "")
    (hlabel : Tints a b) (ha : ¬StartsLine a) (hrest : List.Forall₂ Part as bs) :
    ErasesIff (¬StartsLine b) (joinParts (sign :: a :: as)) (joinParts (sign' :: b :: bs)) := by
  have hparts : List.Forall₂ Tints (as.map spaced) (bs.map spaced) := by
    rw [List.forall₂_map_left_iff, List.forall₂_map_right_iff]
    exact hrest.imp fun _ _ h => h.tints_spaced
  rw [joinParts_cons (mt hsign.empty_iff.mp hne), joinParts_cons hne, List.map_cons, List.map_cons,
    String.join_cons, String.join_cons]
  have hfirst : ErasesIff True sign sign' := erasesIff_of_erases hsign.erases trivial
  have hlast : ErasesIff True (String.join (as.map spaced)) (String.join (bs.map spaced)) :=
    erasesIff_of_erases (tints_join hparts).erases trivial
  refine (hfirst.append ((erasesIff_spaced hlabel ha).append hlast)).congr ?_
  rw [true_and, and_true]

/-! #### Parts of an entry -/

variable {n l r : Node}

theorem escape_notMem_text (c : Counts) : escape ∉ c.text.toList := by
  refine escape_notMem_append (escape_notMem_append (escape_notMem_append (escape_notMem_append
    (escape_notMem_append (escape_notMem_toString _) ?_) (escape_notMem_toString _)) ?_)
      (escape_notMem_toString _)) ?_
  all_goals decide

theorem tints_change (p : Palette) (kind : ChangeKind) (h : escape ∉ a.toList) :
    Tints (p.change kind a) a := by
  cases kind
  case added => exact tints_paint p .green h
  case deleted => exact tints_paint p .red h
  case modified => exact tints_paint p .yellow h

theorem not_startsLine_paint (c : Color) (text : String) :
    ¬StartsLine (Palette.paint ⟨true⟩ c text) := by
  unfold Palette.paint
  split
  · rename_i h
    have htext : text = "" := by simpa using h
    rw [htext]
    exact not_startsLine_empty
  · rw [String.append_assoc, String.append_assoc, String.append_assoc,
      startsLine_append (by decide)]
    decide

theorem change_eq_empty {p : Palette} {kind : ChangeKind} : p.change kind a = "" ↔ a = "" := by
  cases kind <;> exact Palette.paint_eq_empty

theorem not_startsLine_change (kind : ChangeKind) (text : String) :
    ¬StartsLine (Palette.change ⟨true⟩ kind text) := by
  cases kind <;> exact not_startsLine_paint _ text

namespace Options

/-- The options with colours. -/
def coloured (o : Options) : Options :=
  { o with palette := ⟨true⟩ }

/-- The options without colours. -/
def uncoloured (o : Options) : Options :=
  { o with palette := .plain }

end Options

theorem part_metadata (o : Options) (n : Node) :
    Part (metadata o.coloured n) (metadata o.uncoloured n) := by
  have hkind : escape ∉ n.kind.name.toList := by cases n.kind <;> decide
  have htext : escape ∉ ("[line:" ++ toString n.line ++ " <" ++ n.kind.name ++ ">]").toList := by
    refine escape_notMem_append (escape_notMem_append (escape_notMem_append
      (escape_notMem_append ?_ (escape_notMem_toString _)) ?_) hkind) ?_
    all_goals decide
  cases hshow : o.metadata with
  | false =>
      simp only [metadata, Options.coloured, Options.uncoloured, hshow, Bool.false_eq_true,
        if_false]
      exact part_of_not_startsLine (tints_self (by decide)) not_startsLine_empty
  | true =>
      simp only [metadata, Options.coloured, Options.uncoloured, hshow, if_true]
      refine part_of_not_startsLine (tints_paint ⟨true⟩ .white htext) ?_
      rw [Palette.metadata, Palette.paint_plain, String.append_assoc, String.append_assoc,
        String.append_assoc, startsLine_append (by decide)]
      decide

theorem exists_entry_eq (p : Palette) (key : String) (n : Node) {ls : List String} (h : ls ≠ []) :
    ∃ more rest, Emitter.entry p key n ls = (Emitter.keyLine p key ++ more) :: rest := by
  obtain ⟨l, ls, rfl⟩ := List.exists_cons_of_ne_nil h
  unfold Emitter.entry
  split
  · exact ⟨"", _, by rw [String.append_empty]⟩
  · exact ⟨" " ++ l, ls, by rw [Lines.lead, String.append_assoc]⟩

theorem exists_item_eq (n : Node) {ls : List String} (h : ls ≠ []) :
    ∃ more rest, Emitter.item n ls = ("- " ++ more) :: rest := by
  obtain ⟨l, ls, rfl⟩ := List.exists_cons_of_ne_nil h
  unfold Emitter.item
  split
  · exact ⟨l, _, rfl⟩
  · exact ⟨l, _, rfl⟩

/-- What takes lines of its own begins with a key, a hyphen, a bracket or a header. -/
theorem exists_start_nodeLines (h : isMultiline n = true) :
    ∃ start more lines, Emitter.nodeLines .plain n = (start ++ more) :: lines ∧ start ≠ "" ∧
      ¬StartsLine start := by
  cases n with
  | mapping es p =>
      cases es with
      | nil => exact ⟨"\x7b\x7d", "", [], rfl, by decide, by decide⟩
      | cons e es =>
          obtain ⟨more, rest, hentry⟩ :=
            exists_entry_eq .plain e.1 e.2 (Emitter.nodeLines_ne_nil .plain e.2)
          refine ⟨Emitter.keyLine .plain e.1, more, rest ++ Emitter.entriesLines .plain es, ?_, ?_,
            fun hstarts => ?_⟩
          · exact congrArg (· ++ Emitter.entriesLines .plain es) hentry
          · simp [Emitter.keyLine]
          · exact Emitter.newline_notMem_keyLine e.1 (List.mem_of_head? hstarts)
  | sequence is p =>
      cases is with
      | nil => exact ⟨"[]", "", [], rfl, by decide, by decide⟩
      | cons i is =>
          obtain ⟨more, rest, hitem⟩ := exists_item_eq i (Emitter.nodeLines_ne_nil .plain i)
          refine ⟨"- ", more, rest ++ Emitter.itemsLines .plain is, ?_, by decide, by decide⟩
          exact congrArg (· ++ Emitter.itemsLines .plain is) hitem
  | scalar v p =>
      cases v with
      | literal s =>
          have hheader : (Emitter.blockParts s).1 ≠ "" ∧ ¬StartsLine (Emitter.blockParts s).1 := by
            unfold Emitter.blockParts
            split
            all_goals
              dsimp only
              decide
          exact ⟨_, "", _, by rw [String.append_empty]; rfl, hheader⟩
      | string s => cases h
      | integer i => cases h
      | float x => cases h
      | bool b => cases h
      | null => cases h

theorem tints_onNewLine {indentation : String} (h : escape ∉ indentation.toList)
    (hlines : List.Forall₂ Tints as bs) :
    List.Forall₂ Tints (as.map (onNewLine indentation)) (bs.map (onNewLine indentation)) := by
  rw [List.forall₂_map_left_iff, List.forall₂_map_right_iff]
  exact hlines.imp fun _ _ hab => (tints_self (by decide)).append (Lines.tints_pad h hab)

theorem part_value {o : Options} (root : Bool) (hcode : n.CodeFree) (hbreak : ¬BeginsWithBreak n) :
    Part (value o.coloured root n) (value o.uncoloured root n) := by
  cases hmulti : isMultiline n with
  | true =>
      obtain ⟨start, more, lines, hplain, hne, hstarts⟩ := exists_start_nodeLines hmulti
      have hlines := Emitter.tints_nodeLines ⟨true⟩ hcode
      rw [hplain] at hlines
      generalize hcoloured : Emitter.nodeLines ⟨true⟩ n = lines' at hlines
      cases hlines with
      | cons hfirst hlines =>
          simp only [value, hmulti, Options.coloured, Options.uncoloured, hplain, hcoloured,
            if_true]
          cases root with
          | true =>
              refine part_of_not_startsLine
                (hfirst.append (tints_join (tints_onNewLine (by decide) hlines))) ?_
              show ¬StartsLine (start ++ more ++ _)
              rwa [String.append_assoc, startsLine_append hne]
          | false =>
              refine ⟨tints_join (tints_onNewLine (by decide) (.cons hfirst hlines)), fun _ => ?_⟩
              simp only [List.map_cons, String.join_cons, onNewLine, String.append_assoc]
              rw [startsLine_append (by decide)]
              decide
  | false =>
      obtain ⟨v, p, rfl⟩ : ∃ v p, n = .scalar v p := by
        cases n with
        | mapping es p => cases hmulti
        | sequence is p => cases hmulti
        | scalar v p => exact ⟨v, p, rfl⟩
      have hv : ∀ s, v ≠ .literal s := by
        rintro s rfl
        cases hmulti
      cases hcode with
      | literal => cases hmulti
      | scalar _ htext =>
          simp only [value, hmulti, Bool.false_eq_true, if_false, Emitter.inline_scalar hv,
            Options.coloured, Options.uncoloured, Palette.value_plain]
          refine part_of_not_startsLine (tints_value ⟨true⟩ v.kind htext) ?_
          exact fun hstarts => hbreak (beginsWithBreak_scalar.mpr ⟨hv, hstarts⟩)

/-- What stands before a value: nothing, or what begins a line of its own. -/
def Leads (before : String) : Prop :=
  escape ∉ before.toList ∧ (before = "" ∨ StartsLine before)

theorem Leads.part_append {before : String} (hbefore : Leads before) (h : Part a b) :
    Part (before ++ a) (before ++ b) := by
  refine ⟨(tints_self hbefore.1).append h.toTints, fun hstarts => ?_⟩
  rcases hbefore.2 with rfl | hlead
  · simpa using h.starts (by simpa using hstarts)
  · exact hlead.append a

/-- Whether there are colours or not, the two values of a modification are laid out alike. -/
theorem modification_eq (root : Bool) (l r : Node) :
    ∃ before arrow before', Leads before ∧ escape ∉ arrow.toList ∧ Leads before' ∧
      ∀ o, modification o root l r = [metadata o l, before ++ value o root l, arrow, metadata o r,
        before' ++ value o root r] := by
  have hnone : Leads "" := ⟨by decide, .inl rfl⟩
  have hstart : Leads ("\n" ++ if root then rootIndent else valueIndent) := by
    cases root <;> exact ⟨by decide, .inr (by decide)⟩
  have harrow : escape ∉ ("\n" ++ valueIndent ++ "↓").toList := by decide
  by_cases hmulti : isMultiline l = true ∨ isMultiline r = true
  · by_cases hl : isMultiline l = false ∧ root = false
    · exact ⟨_, _, _, hstart, harrow, hnone, fun o => by simp_all [modification]⟩
    · by_cases hr : isMultiline r = false ∨ root = true
      · refine ⟨_, _, _, hnone, harrow, hstart, fun o => ?_⟩
        cases root <;> simp_all [modification]
      · exact ⟨_, _, _, hnone, harrow, hnone, fun o => by simp_all [modification]⟩
  · have hpoint : escape ∉ "→".toList := by decide
    exact ⟨_, _, _, hnone, hpoint, hnone, fun o => by simp_all [modification]⟩

theorem part_modification {o : Options} (root : Bool) (hl : l.CodeFree) (hr : r.CodeFree)
    (hlbreak : ¬BeginsWithBreak l) (hrbreak : ¬BeginsWithBreak r) :
    List.Forall₂ Part (modification o.coloured root l r) (modification o.uncoloured root l r) := by
  obtain ⟨before, arrow, before', hbefore, harrow, hbefore', heq⟩ := modification_eq root l r
  rw [heq, heq]
  exact .cons (part_metadata o l) (.cons (hbefore.part_append (part_value root hl hlbreak))
    (.cons ⟨tints_self harrow, id⟩ (.cons (part_metadata o r)
      (.cons (hbefore'.part_append (part_value root hr hrbreak)) .nil))))

/-- What can be shown of a difference has no codes of its own, and no text of a scalar among it
begins with a line feed. -/
structure Paintable (d : Difference) : Prop where
  path : escape ∉ d.path.toList
  left : ∀ n, d.left? = some n → n.CodeFree ∧ ¬BeginsWithBreak n
  right : ∀ n, d.right? = some n → n.CodeFree ∧ ¬BeginsWithBreak n

/-- What follows the sign of an entry. -/
def label (p : Palette) (pathsOnly : Bool) (d : Difference) : String :=
  if pathsOnly then p.change d.kind d.path
  else if d.path.isEmpty then "" else p.change d.kind d.path ++ ":"

/-- What follows the label of an entry. -/
def body (o : Options) (d : Difference) : List String :=
  if o.pathsOnly then []
  else
    match d with
    | .added n | .deleted n => [metadata o n, value o d.path.isEmpty n]
    | .modified l r => modification o d.path.isEmpty l r

theorem difference_eq (o : Options) (d : Difference) :
    difference o d =
      joinParts (o.palette.change d.kind (sign d.kind) :: label o.palette o.pathsOnly d ::
        body o d) := by
  unfold difference label body
  cases o.pathsOnly <;> cases d <;> rfl

theorem change_plain (kind : ChangeKind) (text : String) :
    Palette.plain.change kind text = text := by
  cases kind <;> rfl

theorem tints_label (p : Palette) (pathsOnly : Bool) {d : Difference}
    (h : escape ∉ d.path.toList) : Tints (label p pathsOnly d) (label .plain pathsOnly d) := by
  have hpath : Tints (p.change d.kind d.path) d.path := tints_change p d.kind h
  unfold label
  rw [change_plain]
  cases pathsOnly with
  | true => exact hpath
  | false =>
      cases d.path.isEmpty with
      | true => exact tints_self List.not_mem_nil
      | false => exact hpath.append (tints_self (by decide))

theorem startsLine_label (pathsOnly : Bool) (d : Difference) :
    StartsLine (label .plain pathsOnly d) ↔ StartsLine d.path := by
  unfold label
  rw [change_plain]
  cases pathsOnly with
  | true => exact Iff.rfl
  | false =>
      cases hempty : d.path.isEmpty with
      | true => rw [String.isEmpty_iff.mp hempty]; rfl
      | false => exact startsLine_append (by simpa using hempty) ":"

/-- With colours the label begins with a code. -/
theorem not_startsLine_label (pathsOnly : Bool) (d : Difference) :
    ¬StartsLine (label ⟨true⟩ pathsOnly d) := by
  have hpath := not_startsLine_change d.kind d.path
  unfold label
  cases pathsOnly with
  | true => exact hpath
  | false =>
      cases hempty : d.path.isEmpty with
      | true => exact not_startsLine_empty
      | false =>
          have hne : Palette.change ⟨true⟩ d.kind d.path ≠ "" :=
            mt change_eq_empty.mp (by simpa using hempty)
          exact mt (startsLine_append hne ":").mp hpath

theorem part_body (o : Options) {d : Difference} (h : Paintable d) :
    List.Forall₂ Part (body o.coloured d) (body o.uncoloured d) := by
  unfold body
  cases hpaths : o.pathsOnly with
  | true =>
      simp only [Options.coloured, Options.uncoloured, hpaths, if_true]
      exact .nil
  | false =>
      simp only [show o.coloured.pathsOnly = false from hpaths,
        show o.uncoloured.pathsOnly = false from hpaths, Bool.false_eq_true, if_false]
      have hside : ∀ n, n.CodeFree ∧ ¬BeginsWithBreak n →
          List.Forall₂ Part [metadata o.coloured n, value o.coloured d.path.isEmpty n]
            [metadata o.uncoloured n, value o.uncoloured d.path.isEmpty n] := fun n hn =>
        .cons (part_metadata o n) (.cons (part_value _ hn.1 hn.2) .nil)
      cases d with
      | added n => exact hside n (h.right n rfl)
      | deleted n => exact hside n (h.left n rfl)
      | modified l r =>
          obtain ⟨hl, hlbreak⟩ := h.left l rfl
          obtain ⟨hr, hrbreak⟩ := h.right r rfl
          exact part_modification _ hl hr hlbreak hrbreak

/-- **An entry with colours is the plain one, exactly if its path does not begin with a line
feed.** -/
theorem erasesIff_difference (o : Options) {d : Difference} (h : Paintable d) :
    ErasesIff (¬StartsLine d.path) (difference o.coloured d) (difference o.uncoloured d) := by
  rw [difference_eq, difference_eq]
  have hsign : escape ∉ (sign d.kind).toList ∧ sign d.kind ≠ "" := by cases d.kind <;> decide
  have hchange : Tints (o.coloured.palette.change d.kind (sign d.kind))
      (o.uncoloured.palette.change d.kind (sign d.kind)) := by
    rw [show o.uncoloured.palette = .plain from rfl, change_plain]
    exact tints_change _ _ hsign.1
  refine (erasesIff_joinParts hchange ?_ (tints_label ⟨true⟩ o.pathsOnly h.path)
    (not_startsLine_label o.pathsOnly d) (part_body o h)).congr
      (not_congr (startsLine_label o.pathsOnly d))
  rw [show o.uncoloured.palette = .plain from rfl, change_plain]
  exact hsign.2

theorem erasesIff_document (o : Options) {d : DocumentDiff}
    (h : ∀ x ∈ d.differences, Paintable x) :
    ErasesIff (∀ x ∈ d.differences, ¬StartsLine x.path) (document o.coloured d)
      (document o.uncoloured d) := by
  have hbreak : escape ∉ "\n".toList := by decide
  have hbody := erasesIff_intercalate hbreak fun x hx => erasesIff_difference o (h x hx)
  cases hcounts : o.counts with
  | false =>
      simp only [document, Options.coloured, Options.uncoloured, hcounts]
      exact hbody
  | true =>
      simp only [document, Options.coloured, Options.uncoloured, hcounts, if_true]
      have hhead : Erases (d.counts.text ++ "\n") (d.counts.text ++ "\n") :=
        erases_self (escape_notMem_append (escape_notMem_text d.counts) (by decide))
      exact ((erasesIff_of_erases hhead trivial).append hbody).congr (by rw [true_and])

/-- **The list view with colours is the plain one, exactly if no path begins with a line feed.** -/
theorem erasesIff_render (o : Options) {d : StreamDiff}
    (h : ∀ doc ∈ d.documents, ∀ x ∈ doc.differences, Paintable x) :
    ErasesIff (∀ doc ∈ d.documents, ∀ x ∈ doc.differences, ¬StartsLine x.path)
      (render o.coloured d) (render o.uncoloured d) :=
  erasesIff_intercalate (by decide) fun doc hdoc => erasesIff_document o (h doc hdoc)

/-! #### Paths of documents that were read -/

/-- A path is empty or begins with a dot or a bracket. -/
theorem not_startsLine_render (p : List Step) : ¬StartsLine (Path.render p) := by
  rw [StartsLine, Path.toList_render]
  cases p with
  | nil => decide
  | cons s p => cases s <;> simp [Path.segment]

theorem not_startsLine_of_ofText {leftText rightText : String} {left right : Stream}
    (options : CompareOptions) (hleft : Stream.ofText leftText = .ok left)
    (hright : Stream.ofText rightText = .ok right) :
    ∀ doc ∈ (StreamDiff.ofStreams options left right).documents, ∀ x ∈ doc.differences,
      ¬StartsLine x.path := by
  intro doc hdoc x hx
  obtain ⟨i, R, p, hreports, hmem⟩ := Compare.exists_report_of_mem hdoc hx
  have hplaced : Compare.PlacedAt "" (left.document i) (right.document i) :=
    ⟨fun _ hl => Stream.placed_of_ofText hleft hl, fun _ hr => Stream.placed_of_ofText hright hr⟩
  rw [hreports.path_eq hplaced hmem]
  exact not_startsLine_render p

end ListView

/-! ### All views -/

open ListView (BeginsWithBreak Options Paintable StartsLine beginsWithBreak_scalar)

theorem map_erase_eq {as bs : List String} (h : List.Forall₂ Tints as bs) : as.map erase = bs := by
  induction h with
  | nil => rfl
  | cons hab _ ih => rw [List.map_cons, hab.erases.erase_eq, ih]

/-- **Colours only add escape codes.**  Where nothing that is shown has codes of its own, and no
text of a scalar begins with a line feed, leaving out the codes gives what is shown without
colours: in the unified view, for a node, an entry, an item or a key on its own, and in the list
view, whatever else it is to show, exactly if no path begins with a line feed.  None does where
both sides have been read from text. -/
theorem erasing_colours (o : Options) (d : StreamDiff) (left right : Stream) (key : String)
    (n : Node) (hd : ∀ doc ∈ d.documents, ∀ x ∈ doc.differences, Paintable x)
    (hstreams : ∀ i n, left.document i = some n ∨ right.document i = some n → n.CodeFree)
    (hkey : escape ∉ key.toList) (hn : n.CodeFree) :
    (erase (ListView.render o.coloured d) = ListView.render o.uncoloured d ↔
        ∀ doc ∈ d.documents, ∀ x ∈ doc.differences, ¬StartsLine x.path) ∧
      (∀ options leftText rightText left right, Stream.ofText leftText = .ok left →
        Stream.ofText rightText = .ok right → d = .ofStreams options left right →
          ∀ doc ∈ d.documents, ∀ x ∈ doc.differences, ¬StartsLine x.path) ∧
      erase (Unified.render ⟨true⟩ left right d) = Unified.render .plain left right d ∧
      (Emitter.nodeLines ⟨true⟩ n).map erase = Emitter.nodeLines .plain n ∧
      (Emitter.entryLines ⟨true⟩ key n).map erase = Emitter.entryLines .plain key n ∧
      (Emitter.itemLines ⟨true⟩ n).map erase = Emitter.itemLines .plain n ∧
      erase (Emitter.keyLine ⟨true⟩ key) = Emitter.keyLine .plain key := by
  refine ⟨(ListView.erasesIff_render o hd).erase_eq_iff, ?_,
    (Unified.erases_render ⟨true⟩ d hstreams).erase_eq,
    map_erase_eq (Emitter.tints_nodeLines ⟨true⟩ hn),
    map_erase_eq (Emitter.tints_entryLines ⟨true⟩ hkey hn),
    map_erase_eq (Emitter.tints_itemLines ⟨true⟩ hn),
    (Emitter.tints_keyLine ⟨true⟩ hkey).erases.erase_eq⟩
  rintro options leftText rightText left right hleft hright rfl
  exact ListView.not_startsLine_of_ofText options hleft hright

/-- A block of text that is replaced by a word, with everything that the list can show. -/
theorem erasing_colours_of_block :
    ∃ (d : StreamDiff) (left right : Stream) (n : Node),
      (∀ doc ∈ d.documents, ∀ x ∈ doc.differences, Paintable x ∧ ¬StartsLine x.path) ∧
      (∀ i n, left.document i = some n ∨ right.document i = some n → n.CodeFree) ∧
      n.CodeFree ∧
      erase (ListView.render ⟨⟨true⟩, false, true, true⟩ d) =
        "0 added, 0 deleted, 1 modified\n~ .k: [line:1 <Literal>]\n    |\n      x\n    ↓ " ++
          "[line:1 <String>]\n    y" ∧
      erase (Unified.render ⟨true⟩ left right d) = "-k: |\n-  x\n+k: y" ∧
      (Emitter.nodeLines ⟨true⟩ n).map erase = ["k: |", "  x"] := by
  let x : Node := .scalar (.literal "x\n") ⟨"x\n", 1, 4, ".k"⟩
  let y : Node := .scalar (.string "y") ⟨"y", 1, 4, ".k"⟩
  let n : Node := .mapping [("k", x)] ⟨"", 1, 1, ""⟩
  let m : Node := .mapping [("k", y)] ⟨"", 1, 1, ""⟩
  let d : StreamDiff := ⟨[⟨[.modified x y]⟩]⟩
  have hx : x.CodeFree := .literal (by decide)
  have hy : y.CodeFree := .scalar (fun _ hv => by cases hv) (by decide)
  have hn : n.CodeFree :=
    .mapping (by decide) (List.forall_mem_singleton.mpr hx)
  have hm : m.CodeFree :=
    .mapping (by decide) (List.forall_mem_singleton.mpr hy)
  have hxbreak : ¬BeginsWithBreak x := fun h => (beginsWithBreak_scalar.mp h).1 _ rfl
  have hybreak : ¬BeginsWithBreak y := fun h =>
    absurd (beginsWithBreak_scalar.mp h).2 (by decide)
  have hd : ∀ doc ∈ d.documents, ∀ z ∈ doc.differences, Paintable z :=
    List.forall_mem_singleton.mpr (List.forall_mem_singleton.mpr ⟨by decide,
      fun _ hk => Option.some.inj hk ▸ ⟨hx, hxbreak⟩,
      fun _ hk => Option.some.inj hk ▸ ⟨hy, hybreak⟩⟩)
  have hpaths : ∀ doc ∈ d.documents, ∀ z ∈ doc.differences, ¬StartsLine z.path :=
    List.forall_mem_singleton.mpr (List.forall_mem_singleton.mpr (by decide))
  have hstreams : ∀ i k, (Stream.mk [some n]).document i = some k ∨
      (Stream.mk [some m]).document i = some k → k.CodeFree := by
    rintro (_ | i) k (hk | hk)
    · exact Option.some.inj hk ▸ hn
    · exact Option.some.inj hk ▸ hm
    · cases hk
    · cases hk
  obtain ⟨hlist, -, hunified, hlines, -⟩ := erasing_colours ⟨.plain, false, true, true⟩ d
    ⟨[some n]⟩ ⟨[some m]⟩ "k" n hd hstreams (by decide) hn
  refine ⟨d, ⟨[some n]⟩, ⟨[some m]⟩, n,
    fun doc hdoc z hz => ⟨hd doc hdoc z hz, hpaths doc hdoc z hz⟩, hstreams, hn,
    (hlist.mpr hpaths).trans ?_, hunified.trans ?_, hlines.trans ?_⟩
  all_goals decide +kernel

/-- A node that was put at a path by hand: only with colours there is a space before the path. -/
theorem space_before_path :
    ∃ d : StreamDiff, d = ⟨[⟨[.added (.scalar (.string "x") ⟨"x", 1, 1, "\n"⟩)]⟩]⟩ ∧
      (∀ doc ∈ d.documents, ∀ x ∈ doc.differences, Paintable x) ∧
      ListView.render ⟨⟨true⟩, false, false, false⟩ d =
        "\x1b[92m+\x1b[0m \x1b[92m\n\x1b[0m: \x1b[92mx\x1b[0m" ∧
      ListView.render ⟨.plain, false, false, false⟩ d = "+\n: x" ∧
      erase (ListView.render ⟨⟨true⟩, false, false, false⟩ d) ≠
        ListView.render ⟨.plain, false, false, false⟩ d := by
  let x : Node := .scalar (.string "x") ⟨"x", 1, 1, "\n"⟩
  have hbreak : ¬BeginsWithBreak x := fun h => absurd (beginsWithBreak_scalar.mp h).2 (by decide)
  have hx : x.CodeFree := .scalar (fun _ hv => by cases hv) (by decide)
  have hd : Paintable (.added x) :=
    ⟨by decide, fun _ hn => (by cases hn), fun _ hn => Option.some.inj hn ▸ ⟨hx, hbreak⟩⟩
  exact ⟨⟨[⟨[.added x]⟩]⟩, rfl, List.forall_mem_singleton.mpr (List.forall_mem_singleton.mpr hd),
    by decide +kernel, by decide +kernel, by decide +kernel⟩

end YamlDelta
