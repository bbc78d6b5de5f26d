/-
A node on the page.

The lines of a node are written below each other, at the column where the node begins.  The
first line is there already, behind a key or a hyphen; the others are set at that column,
except that empty lines stay empty (`placed`).  Indentation, bullets and leads are ways of
saying at which column a block goes on, so they disappear here: an entry is its key, a colon
and the value in one place or another, and an item is a hyphen and its node.
-/
import YamlDelta.Proofs.Markup.Literal
import YamlDelta.Proofs.View.Breaks

namespace YamlDelta

open Markup (setLines)

namespace Lines

/-- Lines below each other at a column, the first of which begins where the text has come to. -/
def placed (column : Nat) : List String → List Char → List Char
  | [], after => after
  | l :: ls, after => l.toList ++ '\n' :: setLines column (ls.map String.toList) after

/-- Lines below each other at a column. -/
def below (column : Nat) (ls : List String) (after : List Char) : List Char :=
  setLines column (ls.map String.toList) after

variable {ls ms : List String} {l : String} {column width : Nat} {after : List Char}

theorem below_append : below column (ls ++ ms) after = below column ls (below column ms after) := by
  induction ls with
  | nil => rfl
  | cons l ls ih =>
      show _ ++ '\n' :: below column (ls ++ ms) after = _ ++ '\n' :: below column ls _
      rw [ih]

theorem below_cons_of_ne_empty (h : l ≠ "") :
    below column (l :: ls) after = List.replicate column ' ' ++ placed column (l :: ls) after := by
  have hne : l.toList.isEmpty = false := by simpa using h
  show (if l.toList.isEmpty = true then _ else _) ++ '\n' :: _ = _ ++ (_ ++ '\n' :: _)
  rw [hne, if_neg Bool.false_ne_true, List.append_assoc]

/-- An indented block is a block at another column. -/
theorem below_indent : below column (indent width ls) after = below (column + width) ls after := by
  induction ls with
  | nil => rfl
  | cons l ls ih =>
      show _ ++ '\n' :: below column (indent width ls) after =
        _ ++ '\n' :: below (column + width) ls after
      rw [ih]
      congr 1
      by_cases hl : l = ""
      · subst hl
        rfl
      · have hne : l.toList.isEmpty = false := by simpa using hl
        rw [pad_of_ne_empty hl, String.toList_append, String.toList_ofList, hne,
          ← List.append_assoc,
          List.replicate_append_replicate]
        simp [hl]

theorem placed_append (h : ls ≠ []) :
    placed column (ls ++ ms) after = placed column ls (below column ms after) := by
  cases ls with
  | nil => exact absurd rfl h
  | cons l ls =>
      show _ ++ '\n' :: below column (ls ++ ms) after = _ ++ '\n' :: below column ls _
      rw [below_append]

theorem placed_lead (h : ls ≠ []) (before : String) :
    placed column (lead before ls) after = before.toList ++ placed column ls after := by
  cases ls with
  | nil => exact absurd rfl h
  | cons l ls =>
      show (before ++ l).toList ++ _ = _ ++ (l.toList ++ _)
      rw [String.toList_append, List.append_assoc]

/-- The rest of an item is indented by the width of its bullet. -/
theorem placed_bullet (h : ls ≠ []) :
    placed column (bullet ls) after = '-' :: ' ' :: placed (column + 2) ls after := by
  cases ls with
  | nil => exact absurd rfl h
  | cons l ls =>
      show ("- " ++ l).toList ++ '\n' :: below column (indent 2 ls) after = _
      rw [String.toList_append, below_indent]
      rfl

/-- The lines joined by line breaks, with one at the end. -/
theorem toList_intercalate_append (h : ls ≠ []) :
    ("\n".intercalate ls ++ "\n").toList = placed 0 ls [] := by
  cases ls with
  | nil => exact absurd rfl h
  | cons l ls =>
      rw [String.toList_append, String.toList_intercalate]
      induction ls generalizing l with
      | nil => simp [placed, setLines]
      | cons m ms ih =>
          show (l.toList ++ (['\n'] ++
              List.intercalate ['\n'] (m.toList :: ms.map String.toList))) ++ ['\n'] =
            l.toList ++ '\n' ::
              ((if m.toList.isEmpty then [] else [] ++ m.toList) ++ '\n' :: below 0 ms [])
          have hline : (if m.toList.isEmpty then [] else [] ++ m.toList) = m.toList := by
            split
            · rename_i hm
              rw [List.isEmpty_iff.mp hm]
            · rfl
          rw [hline, List.append_assoc, List.append_assoc]
          exact congrArg (l.toList ++ '\n' :: ·) (ih m (List.cons_ne_nil _ _))

end Lines

namespace Emitter

open Lines

variable {n : Node} {es : List (String × Node)} {is : List Node} {column : Nat}
  {after : List Char}

/-- The text of a node whose lines go on at a column. -/
def nodeText (column : Nat) (n : Node) (after : List Char) : List Char :=
  placed column (nodeLines .plain n) after

/-- The text of a value after its colon. -/
def valueText (column : Nat) (n : Node) (after : List Char) : List Char :=
  if isBlock n then '\n' :: (List.replicate (column + 2) ' ' ++ nodeText (column + 2) n after)
  else ' ' :: nodeText column n after

/-- A node with a text of its own as a whole. -/
def fileText (n : Node) : String :=
  "\n".intercalate (nodeLines .plain n) ++ "\n"

theorem toList_fileText (n : Node) : (fileText n).toList = nodeText 0 n [] :=
  toList_intercalate_append (nodeLines_ne_nil .plain n)

/-- A block begins with something to be seen. -/
theorem exists_first_line (h : isBlock n = true) :
    ∃ l ls, nodeLines .plain n = l :: ls ∧ l ≠ "" := by
  have hhead : ∀ {l : String}, isHead l = true → l ≠ "" := by
    rintro _ hl rfl
    cases hl
  cases n with
  | mapping es p =>
      obtain ⟨e, es, rfl⟩ := List.exists_cons_of_ne_nil (by simpa [isBlock] using h)
      obtain ⟨⟨l, ls, hlines, hl, -⟩, -⟩ := headedBy_entryLines e.1 e.2
      refine ⟨l, ls ++ entriesLines .plain es, ?_, hhead hl⟩
      show entryLines .plain e.1 e.2 ++ entriesLines .plain es = _
      rw [hlines]
      rfl
  | sequence is p =>
      obtain ⟨n, is, rfl⟩ := List.exists_cons_of_ne_nil (by simpa [isBlock] using h)
      obtain ⟨l, ls, hlines, hl, -⟩ := headed_itemLines n
      refine ⟨l, ls ++ itemsLines .plain is, ?_, hhead hl⟩
      show itemLines .plain n ++ itemsLines .plain is = _
      rw [hlines]
      rfl
  | scalar v p => cases h

/-- A block below what comes before it. -/
theorem below_nodeLines (h : isBlock n = true) (column : Nat) (after : List Char) :
    below column (nodeLines .plain n) after =
      List.replicate column ' ' ++ nodeText column n after := by
  obtain ⟨l, ls, hlines, hl⟩ := exists_first_line h
  rw [nodeText, hlines, below_cons_of_ne_empty hl]

/-! ### Entries and items -/

/-- An entry, and what comes below it. -/
theorem placed_entry (column : Nat) (k : String) (n : Node) (ms : List String)
    (after : List Char) :
    placed column (entryLines .plain k n ++ ms) after =
      (keyText k).toList ++ ':' :: valueText column n (below column ms after) := by
  rw [placed_append (entryLines_ne_nil .plain k n), entryLines, entry, valueText]
  split
  · rename_i h
    show (keyText k ++ ":").toList ++ '\n' :: below column (indent 2 (nodeLines .plain n)) _ = _
    rw [below_indent, below_nodeLines h, String.toList_append, List.append_assoc]
    rfl
  · rw [placed_lead (nodeLines_ne_nil .plain n)]
    show (keyText k ++ ":" ++ " ").toList ++ _ = _
    rw [String.toList_append, String.toList_append, List.append_assoc, List.append_assoc]
    rfl

/-- An item, and what comes below it. -/
theorem placed_item (column : Nat) (n : Node) (ms : List String) (after : List Char) :
    placed column (itemLines .plain n ++ ms) after =
      '-' :: ' ' ::
        nodeText (if isBlock n then column + 2 else column) n (below column ms after) := by
  rw [placed_append (itemLines_ne_nil .plain n), itemLines, item]
  split
  · exact placed_bullet (nodeLines_ne_nil .plain n)
  · rw [placed_lead (nodeLines_ne_nil .plain n)]
    rfl

theorem nodeText_entries (h : es ≠ []) (p : Place) :
    nodeText column (.mapping es p) after = placed column (entriesLines .plain es) after := by
  have hempty : es.isEmpty = false := List.isEmpty_eq_false_iff.mpr h
  rw [nodeText, nodeLines, hempty, if_neg Bool.false_ne_true]

theorem nodeText_items (h : is ≠ []) (p : Place) :
    nodeText column (.sequence is p) after = placed column (itemsLines .plain is) after := by
  have hempty : is.isEmpty = false := List.isEmpty_eq_false_iff.mpr h
  rw [nodeText, nodeLines, hempty, if_neg Bool.false_ne_true]

/-- Entries below what comes before them. -/
theorem below_entries (h : es ≠ []) :
    below column (entriesLines .plain es) after =
      List.replicate column ' ' ++ placed column (entriesLines .plain es) after := by
  have hbelow := below_nodeLines (n := .mapping es ⟨"", 0, 0, ""⟩) (by simpa [isBlock] using h)
    column after
  rw [nodeText_entries h] at hbelow
  rw [← hbelow, nodeLines, List.isEmpty_eq_false_iff.mpr h, if_neg Bool.false_ne_true]

/-- Items below what comes before them. -/
theorem below_items (h : is ≠ []) :
    below column (itemsLines .plain is) after =
      List.replicate column ' ' ++ placed column (itemsLines .plain is) after := by
  have hbelow := below_nodeLines (n := .sequence is ⟨"", 0, 0, ""⟩) (by simpa [isBlock] using h)
    column after
  rw [nodeText_items h] at hbelow
  rw [← hbelow, nodeLines, List.isEmpty_eq_false_iff.mpr h, if_neg Bool.false_ne_true]

/-! ### Scalars -/

theorem nodeText_scalar {v : Scalar} (h : ∀ s, v ≠ .literal s) (column : Nat) (p : Place)
    (after : List Char) :
    nodeText column (.scalar v p) after = p.text.toList ++ '\n' :: after := by
  cases v with
  | literal s => exact absurd rfl (h s)
  | string | integer | float | bool | null => rfl

/-- The lines of a text as characters. -/
def charLines (cs : List Char) : List (List Char) :=
  cs.splitOn '\n'

theorem nodeText_literal (column : Nat) (s : String) (p : Place) (after : List Char) :
    nodeText column (.scalar (.literal s) p) after =
      (blockParts s).1.toList ++ '\n' ::
        setLines (column + 2) (charLines (blockParts s).2.toList) after := by
  show (blockParts s).1.toList ++ '\n' ::
    below column (indent 2 ((ofText (blockParts s).2).map (Palette.plain.value .literal))) after = _
  rw [below_indent, below]
  have hplain : Palette.plain.value Kind.literal = id := rfl
  rw [hplain, List.map_id, ofText, List.map_map]
  have hid : String.toList ∘ String.ofList = id := funext fun cs => String.toList_ofList
  rw [hid, List.map_id, charLines]

end Emitter

end YamlDelta
