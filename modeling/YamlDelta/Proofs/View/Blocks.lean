/-
Blocks are read back.

The entries of a mapping and the items of a sequence are blocks one below the other.  Each
begins with a line that has something at its first column, the key or the hyphen, and none
of its further lines does.  So lines that are such blocks can be taken apart in one way only,
and there are as many blocks as lines of the first kind.  The first line of an entry also
tells its key: a key that could be mistaken for a shorter one and the beginning of a value
is quoted.
-/
import YamlDelta.Proofs.Node.Location
import YamlDelta.Proofs.Text.Quoted
import YamlDelta.View.Emitter

namespace YamlDelta

namespace Lines

/-! ### Layouts lose nothing -/

@[simp] theorem pad_empty (before : String) : pad before "" = "" := rfl

theorem pad_of_ne_empty {line : String} (h : line ≠ "") (before : String) :
    pad before line = before ++ line := by
  rw [pad, if_neg (by simpa using h)]

theorem pad_injective (before : String) : Function.Injective (pad before) := by
  intro a b hab
  by_cases ha : a = "" <;> by_cases hb : b = ""
  · rw [ha, hb]
  · rw [ha, pad_empty, pad_of_ne_empty hb, eq_comm, String.append_eq_empty_iff] at hab
    exact absurd hab.2 hb
  · rw [hb, pad_empty, pad_of_ne_empty ha, String.append_eq_empty_iff] at hab
    exact absurd hab.2 ha
  · rw [pad_of_ne_empty ha, pad_of_ne_empty hb, ← String.toList_inj, String.toList_append,
      String.toList_append] at hab
    exact String.toList_inj.mp (List.append_cancel_left hab)

theorem indent_injective (width : Nat) : Function.Injective (indent width) :=
  List.map_injective_iff.mpr (pad_injective _)

theorem bullet_injective : Function.Injective bullet := by
  intro as bs h
  cases as with
  | nil =>
      cases bs with
      | nil => rfl
      | cons b bs => cases h
  | cons a as =>
      cases bs with
      | nil => cases h
      | cons b bs =>
          obtain ⟨hfirst, hrest⟩ := List.cons.inj h
          rw [← String.toList_inj, String.toList_append, String.toList_append] at hfirst
          rw [String.toList_inj.mp (List.append_cancel_left hfirst),
            List.map_injective_iff.mpr (pad_injective _) hrest]

end Lines

namespace Emitter

/-! ### Heads -/

/-- The line has something at its first column. -/
def isHead (line : String) : Bool :=
  line.toList.head?.any (· != ' ')

/-- A block: a head, and no other one. -/
def Headed (lines : List String) : Prop :=
  ∃ first rest, lines = first :: rest ∧ isHead first = true ∧ ∀ l ∈ rest, isHead l = false

theorem isHead_append {a : String} (h : isHead a = true) (b : String) : isHead (a ++ b) = true := by
  unfold isHead at *
  rw [String.toList_append]
  cases ha : a.toList with
  | nil => simp [ha] at h
  | cons c cs => simpa [ha] using h

theorem isHead_pad (line : String) : isHead (Lines.pad "  " line) = false := by
  by_cases h : line = ""
  · rw [h]
    rfl
  · rw [Lines.pad_of_ne_empty h, isHead, String.toList_append]
    rfl

theorem isHead_indent {lines : List String} : ∀ l ∈ Lines.indent 2 lines, isHead l = false := by
  intro l hl
  obtain ⟨m, -, rfl⟩ := List.mem_map.mp hl
  exact isHead_pad m

theorem Headed.ne_nil {lines : List String} (h : Headed lines) : lines ≠ [] := by
  obtain ⟨first, rest, rfl, -⟩ := h
  exact List.cons_ne_nil _ _

theorem Headed.countP {lines : List String} (h : Headed lines) : lines.countP isHead = 1 := by
  obtain ⟨first, rest, rfl, hfirst, hrest⟩ := h
  rw [List.countP_cons_of_pos hfirst, List.countP_eq_zero.mpr fun l hl => by simp [hrest l hl]]

/-- **Blocks are taken apart in one way only.** -/
theorem flatten_headed_inj {bs cs : List (List String)} (hb : ∀ b ∈ bs, Headed b)
    (hc : ∀ c ∈ cs, Headed c) (h : bs.flatten = cs.flatten) : bs = cs := by
  induction bs generalizing cs with
  | nil =>
      cases cs with
      | nil => rfl
      | cons c cs =>
          have hne := (hc c (List.mem_cons_self ..)).ne_nil
          rw [List.flatten_nil, List.flatten_cons, eq_comm, List.append_eq_nil_iff] at h
          exact absurd h.1 hne
  | cons b bs ih =>
      cases cs with
      | nil =>
          have hne := (hb b (List.mem_cons_self ..)).ne_nil
          rw [List.flatten_nil, List.flatten_cons, List.append_eq_nil_iff] at h
          exact absurd h.1 hne
      | cons c cs =>
          rw [List.forall_mem_cons] at hb hc
          obtain ⟨⟨first, rest, rfl, -, hrest⟩, hb⟩ := hb
          obtain ⟨⟨first', rest', rfl, -, hrest'⟩, hc⟩ := hc
          rw [List.flatten_cons, List.flatten_cons, List.cons_append, List.cons_append] at h
          obtain ⟨rfl, hrests⟩ := List.cons.inj h
          -- the next head ends either block
          have hnext : ∀ ds : List (List String), (∀ d ∈ ds, Headed d) →
              ∀ l, ds.flatten.head? = some l → (!isHead l) = false := by
            intro ds hds l hl
            cases ds with
            | nil => cases hl
            | cons d ds =>
                obtain ⟨next, _, rfl, hhead, -⟩ := hds d (List.mem_cons_self ..)
                cases hl
                simp [hhead]
          obtain ⟨rfl, hflatten⟩ := Text.run_append_inj (p := fun l => !isHead l)
            (fun l hl => by simp [hrest l hl]) (fun l hl => by simp [hrest' l hl])
            (hnext bs hb) (hnext cs hc) hrests
          rw [ih hb hc hflatten]

/-! ### Keys -/

theorem hasPair_cons {a b c : Char} {cs : List Char} (h : hasPair a b cs = true) :
    hasPair a b (c :: cs) = true := by
  cases cs with
  | nil => simp [hasPair] at h
  | cons d cs => simp [hasPair, h]

theorem hasPair_append {a b : Char} (cs ds : List Char) :
    hasPair a b (cs ++ a :: b :: ds) = true := by
  induction cs with
  | nil => simp [hasPair]
  | cons c cs ih => exact hasPair_cons ih

/-- A key that is not quoted begins with a character that says so. -/
theorem plain_key_head? {key : String} (h : needsQuotes key = false) :
    ∃ c, key.toList.head? = some c ∧ indicators.contains c = false ∧
      Text.isWhitespace c = false := by
  unfold needsQuotes at h
  simp only [Bool.or_eq_false_iff] at h
  cases hk : key.toList with
  | nil => simp [hk] at h
  | cons c cs => exact ⟨c, rfl, by simpa [hk] using h.1.1.1.1.2⟩

theorem plain_key_hasPair {key : String} (h : needsQuotes key = false) :
    hasPair ':' ' ' key.toList = false := by
  unfold needsQuotes at h
  simp only [Bool.or_eq_false_iff] at h
  exact h.1.1.2

theorem isHead_keyText (key : String) : isHead (keyText key) = true := by
  unfold keyText
  split
  · simp [isHead, Text.quoted]
  · rename_i h
    obtain ⟨c, hc, -, hspace⟩ := plain_key_head? (by simpa using h)
    have hne : c ≠ ' ' := by
      rintro rfl
      cases hspace
    simp [isHead, hc, hne]

/-- The line begins with a key: it is the key and its colon, or goes on with a space. -/
def Opens (key : String) (line : String) : Prop :=
  ∃ rest, (rest = [] ∨ rest.head? = some ' ') ∧
    line.toList = (keyText key).toList ++ ':' :: rest

theorem opens_keyLine (key : String) : Opens key (keyLine .plain key) :=
  ⟨[], .inl rfl, by simp [keyLine, Palette.key]⟩

theorem opens_keyLine_append (key rest : String) :
    Opens key (keyLine .plain key ++ " " ++ rest) :=
  ⟨' ' :: rest.toList, .inr rfl, by simp [keyLine, Palette.key]⟩

/-- A key that is not quoted reaches no further than to a colon that ends another key. -/
theorem length_le_of_plain {k l x y : List Char} (hx : x = [] ∨ x.head? = some ' ')
    (hl : hasPair ':' ' ' l = false) (h : k ++ ':' :: x = l ++ ':' :: y) :
    l.length ≤ k.length := by
  rcases List.append_eq_append_iff.mp h with ⟨mid, rfl, hrest⟩ | ⟨mid, rfl, -⟩
  · cases mid with
    | nil => simp
    | cons c mid =>
        obtain ⟨rfl, rfl⟩ := List.cons.inj hrest
        cases mid with
        | nil => simp at hx
        | cons d mid =>
            obtain rfl : d = ' ' := by simpa using hx
            rw [hasPair_append] at hl
            cases hl
  · simp

theorem quoted_ne_plain {k : String} (hk : needsQuotes k = false) (l : String) (x y : List Char) :
    (Text.quoted l).toList ++ x ≠ k.toList ++ y := by
  intro h
  obtain ⟨c, hc, hindicator, -⟩ := plain_key_head? hk
  have hquote : ((Text.quoted l).toList ++ x).head? = some '"' := by simp [Text.quoted]
  rw [h, List.head?_append, hc, Option.some_or] at hquote
  cases hquote
  cases hindicator

/-- **The first line of an entry tells its key.** -/
theorem opens_inj {k l line : String} (hk : Opens k line) (hl : Opens l line) : k = l := by
  obtain ⟨x, hx, hkline⟩ := hk
  obtain ⟨y, hy, hlline⟩ := hl
  rw [hkline] at hlline
  unfold keyText at hlline
  cases hkq : needsQuotes k <;> cases hlq : needsQuotes l <;>
    simp only [hkq, hlq, if_true, Bool.false_eq_true, if_false] at hlline
  case true.true => exact (Text.quoted_append_inj hlline).1
  case true.false => exact absurd hlline (quoted_ne_plain hlq k _ _)
  case false.true => exact absurd hlline.symm (quoted_ne_plain hkq l _ _)
  case false.false =>
    have hle := length_le_of_plain hx (plain_key_hasPair hlq) hlline
    have hge := length_le_of_plain hy (plain_key_hasPair hkq) hlline.symm
    exact String.toList_inj.mp (List.append_inj_left hlline (Nat.le_antisymm hge hle))

/-! ### Nodes as blocks -/

theorem lead_ne_nil {before : String} {lines : List String} (h : lines ≠ []) :
    Lines.lead before lines ≠ [] := by
  cases lines with
  | nil => exact absurd rfl h
  | cons l ls => exact List.cons_ne_nil _ _

theorem bullet_ne_nil {lines : List String} (h : lines ≠ []) : Lines.bullet lines ≠ [] := by
  cases lines with
  | nil => exact absurd rfl h
  | cons l ls => exact List.cons_ne_nil _ _

theorem entry_ne_nil (p : Palette) (key : String) (value : Node) {lines : List String}
    (h : lines ≠ []) : entry p key value lines ≠ [] := by
  unfold entry
  split
  · exact List.cons_ne_nil _ _
  · exact lead_ne_nil h

theorem item_ne_nil (value : Node) {lines : List String} (h : lines ≠ []) :
    item value lines ≠ [] := by
  unfold item
  split
  · exact bullet_ne_nil h
  · exact lead_ne_nil h

/-- Every node takes a line. -/
theorem nodeLines_ne_nil (p : Palette) (n : Node) : nodeLines p n ≠ [] := by
  induction n using Node.induct with
  | mapping es place ih =>
      cases es with
      | nil => exact List.cons_ne_nil _ _
      | cons e es =>
          have hentry := entry_ne_nil p e.1 e.2 (ih e (List.mem_cons_self ..))
          exact List.append_ne_nil_of_left_ne_nil hentry _
  | sequence is place ih =>
      cases is with
      | nil => exact List.cons_ne_nil _ _
      | cons n is =>
          have hitem := item_ne_nil n (ih n (List.mem_cons_self ..))
          exact List.append_ne_nil_of_left_ne_nil hitem _
  | scalar v place => cases v <;> exact List.cons_ne_nil _ _

theorem entryLines_ne_nil (p : Palette) (key : String) (n : Node) : entryLines p key n ≠ [] :=
  entry_ne_nil p key n (nodeLines_ne_nil p n)

theorem itemLines_ne_nil (p : Palette) (n : Node) : itemLines p n ≠ [] :=
  item_ne_nil n (nodeLines_ne_nil p n)

/-- A node that is no block has no head but its first line. -/
theorem nodeLines_of_not_isBlock {n : Node} (h : isBlock n = false) :
    ∃ first rest, nodeLines .plain n = first :: rest ∧ ∀ l ∈ rest, isHead l = false := by
  cases n with
  | mapping es place =>
      cases es with
      | nil => exact ⟨_, [], rfl, nofun⟩
      | cons e es => cases h
  | sequence is place =>
      cases is with
      | nil => exact ⟨_, [], rfl, nofun⟩
      | cons n is => cases h
  | scalar v place =>
      cases v with
      | literal s => exact ⟨_, _, rfl, isHead_indent⟩
      | string s => exact ⟨_, [], rfl, nofun⟩
      | integer i => exact ⟨_, [], rfl, nofun⟩
      | float x => exact ⟨_, [], rfl, nofun⟩
      | bool b => exact ⟨_, [], rfl, nofun⟩
      | null => exact ⟨_, [], rfl, nofun⟩

theorem isHead_keyLine (key : String) : isHead (keyLine .plain key) = true :=
  isHead_append (isHead_keyText key) ":"

/-- A block that begins with a key. -/
def HeadedBy (key : String) (lines : List String) : Prop :=
  Headed lines ∧ ∃ first, lines.head? = some first ∧ Opens key first

theorem headedBy_cons {key : String} {rest : List String} {first : String} (h : Opens key first)
    (hfirst : isHead first = true) (hrest : ∀ l ∈ rest, isHead l = false) :
    HeadedBy key (first :: rest) :=
  ⟨⟨first, rest, rfl, hfirst, hrest⟩, first, rfl, h⟩

theorem HeadedBy.inj {k l : String} {lines : List String} (hk : HeadedBy k lines)
    (hl : HeadedBy l lines) : k = l := by
  obtain ⟨-, first, hfirst, hk⟩ := hk
  obtain ⟨-, first', hfirst', hl⟩ := hl
  rw [hfirst] at hfirst'
  cases hfirst'
  exact opens_inj hk hl

/-- An entry is a block that begins with its key. -/
theorem headedBy_entryLines (key : String) (n : Node) :
    HeadedBy key (entryLines .plain key n) := by
  unfold entryLines entry
  split
  · exact headedBy_cons (opens_keyLine key) (isHead_keyLine key) isHead_indent
  · rename_i h
    obtain ⟨first, rest, hlines, hrest⟩ := nodeLines_of_not_isBlock (by simpa using h)
    rw [hlines]
    refine headedBy_cons (opens_keyLine_append key first) ?_ hrest
    exact isHead_append (isHead_append (isHead_keyLine key) " ") first

theorem headed_bullet {lines : List String} (h : lines ≠ []) : Headed (Lines.bullet lines) := by
  cases lines with
  | nil => exact absurd rfl h
  | cons l ls =>
      refine ⟨_, _, rfl, isHead_append (a := "- ") rfl l, fun m hm => ?_⟩
      obtain ⟨_, -, rfl⟩ := List.mem_map.mp hm
      exact isHead_pad _

/-- An item is a block. -/
theorem headed_itemLines (n : Node) : Headed (itemLines .plain n) := by
  unfold itemLines item
  split
  · exact headed_bullet (nodeLines_ne_nil .plain n)
  · rename_i h
    obtain ⟨first, rest, hlines, hrest⟩ := nodeLines_of_not_isBlock (by simpa using h)
    rw [hlines]
    exact ⟨_, rest, rfl, isHead_append (a := "- ") rfl first, hrest⟩

/-! ### Collections -/

theorem isBlock_of_child {n c : Node} {s : Step} (h : n.child? s = some c) :
    isBlock n = true := by
  rcases Node.child?_cases h with ⟨es, p, k, rfl, rfl, hmem⟩ | ⟨is, p, i, rfl, rfl, hmem⟩
  · cases es <;> simp_all [isBlock]
  · cases is <;> simp_all [isBlock]

theorem isBlock_iff_child {n : Node} :
    isBlock n = true ↔ ∃ s, (n.child? s).isSome = true := by
  constructor
  · intro h
    cases n with
    | mapping es p =>
        obtain ⟨e, es, rfl⟩ := List.exists_cons_of_ne_nil (by simpa [isBlock] using h)
        exact ⟨.key e.1, Node.isSome_lookup.mpr (List.mem_cons_self ..)⟩
    | sequence is p =>
        obtain ⟨n, is, rfl⟩ := List.exists_cons_of_ne_nil (by simpa [isBlock] using h)
        exact ⟨.index 0, rfl⟩
    | scalar v p => cases h
  · rintro ⟨s, hs⟩
    obtain ⟨c, hc⟩ := Option.isSome_iff_exists.mp hs
    exact isBlock_of_child hc

theorem isCollection_of_isBlock {n : Node} (h : isBlock n = true) :
    n.kind.isCollection = true := by
  cases n with
  | mapping es p => rfl
  | sequence is p => rfl
  | scalar v p => cases h

/-- An empty collection takes one line. -/
theorem nodeLines_of_empty {n : Node} (h : n.kind.isCollection = true)
    (hblock : isBlock n = false) : ∃ line, nodeLines .plain n = [line] := by
  cases n with
  | mapping es p =>
      obtain rfl : es = [] := by simpa [isBlock] using hblock
      exact ⟨_, rfl⟩
  | sequence is p =>
      obtain rfl : is = [] := by simpa [isBlock] using hblock
      exact ⟨_, rfl⟩
  | scalar v p => cases v <;> cases h

/-- A collection is an item with a hyphen before its lines, even if it is empty. -/
theorem itemLines_of_isCollection {n : Node} (h : n.kind.isCollection = true) :
    itemLines .plain n = Lines.bullet (nodeLines .plain n) := by
  unfold itemLines Emitter.item
  split
  · rfl
  · rename_i hblock
    obtain ⟨line, hline⟩ := nodeLines_of_empty h (by simpa using hblock)
    rw [hline]
    rfl

/-- A collection has its lines below its key, unless it is empty. -/
theorem entryLines_eq_iff {n : Node} (h : n.kind.isCollection = true) (k : String)
    (ls : List String) :
    keyLine .plain k :: Lines.indent 2 ls = entryLines .plain k n ↔
      isBlock n = true ∧ ls = nodeLines .plain n := by
  unfold entryLines Emitter.entry
  cases hblock : isBlock n with
  | true => simp [(Lines.indent_injective 2).eq_iff]
  | false =>
      obtain ⟨line, hline⟩ := nodeLines_of_empty h hblock
      have hne : keyLine .plain k ≠ keyLine .plain k ++ " " ++ line := by
        intro heq
        have hlength := congrArg (fun s => s.toList.length) heq
        simp at hlength
      simp [hline, Lines.lead, hne]

end Emitter

end YamlDelta
