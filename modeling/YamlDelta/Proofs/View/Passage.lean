/-
How the text of a node is read.

Inside a block the scanner comes to the text of a node, reads it, and stands in front of what
comes after it, with the tokens of the node added to those it had (`Passes`).  For a scalar or
an empty collection this is one step or two.  Entries are read one after the other: the first
opens the block, the others find it open, and whatever comes after the last of them closes
it.  The same holds for items.  So the induction is over the tree, and over the entries or
items of one node.

Two things are different at the root.  Its text begins at the margin, where the marker of a
document could be seen in it, and its block is closed by the end of the text.
-/
import YamlDelta.Proofs.View.Legible

namespace YamlDelta

open Markup Markup.Scanner

namespace Emitter

open Lines

variable {k : String} {n : Node} {es : List (String × Node)} {is : List Node} {column : Nat}
  {after : List Char}

/-! ### Tokens -/

/-- The token of a key. -/
def keyLexeme (key : String) : Lexeme :=
  .scalar (keyStyle key) key

mutual
/-- The tokens of a node. -/
def lexemes : Node → List Lexeme
  | .mapping es _ =>
    if es.isEmpty then [.flowMappingStart, .flowMappingEnd]
    else .blockMappingStart :: (entriesLexemes es ++ [.blockEnd])
  | .sequence is _ =>
    if is.isEmpty then [.flowSequenceStart, .flowSequenceEnd]
    else .blockSequenceStart :: (itemsLexemes is ++ [.blockEnd])
  | .scalar v p => [scalarLexeme v p.text]
/-- The tokens of the entries of a mapping. -/
def entriesLexemes : List (String × Node) → List Lexeme
  | [] => []
  | (k, n) :: es => [.key, keyLexeme k, .value] ++ (lexemes n ++ entriesLexemes es)
/-- The tokens of the items of a sequence. -/
def itemsLexemes : List Node → List Lexeme
  | [] => []
  | n :: is => .blockEntry :: (lexemes n ++ itemsLexemes is)
end

theorem lexemes_entries (h : es ≠ []) (p : Place) :
    lexemes (.mapping es p) = .blockMappingStart :: (entriesLexemes es ++ [.blockEnd]) := by
  rw [lexemes, List.isEmpty_eq_false_iff.mpr h, if_neg Bool.false_ne_true]

theorem lexemes_items (h : is ≠ []) (p : Place) :
    lexemes (.sequence is p) = .blockSequenceStart :: (itemsLexemes is ++ [.blockEnd]) := by
  rw [lexemes, List.isEmpty_eq_false_iff.mpr h, if_neg Bool.false_ne_true]

/-! ### The number of tokens -/

theorem length_valueText (column : Nat) (n : Node) (after : List Char) :
    ∃ column', (nodeText column' n after).length < (valueText column n after).length := by
  unfold valueText
  split
  · refine ⟨column + 2, ?_⟩
    simp only [List.length_cons, List.length_append]
    omega
  · exact ⟨column, Nat.lt_succ_self _⟩

theorem one_le_length_keyText (k : String) : 1 ≤ (keyText k).toList.length := by
  have h := isHead_keyText k
  cases hk : (keyText k).toList with
  | nil => simp [isHead, hk] at h
  | cons => simp

theorem placed_length {ls : List String} (h : ls ≠ []) (column : Nat) (after : List Char) :
    after.length < (placed column ls after).length := by
  cases ls with
  | nil => exact absurd rfl h
  | cons l ls =>
      have hrest := length_setLines column (ls.map String.toList) after
      rw [placed, List.length_append, List.length_cons]
      omega

theorem length_below_entries (column : Nat) (es : List (String × Node)) (after : List Char) :
    (placed column (entriesLines .plain es) after).length ≤
      (below column (entriesLines .plain es) after).length := by
  by_cases h : es = []
  · subst h
    exact Nat.le_refl _
  · rw [below_entries h, List.length_append]
    exact Nat.le_add_left _ _

theorem length_below_items (column : Nat) (is : List Node) (after : List Char) :
    (placed column (itemsLines .plain is) after).length ≤
      (below column (itemsLines .plain is) after).length := by
  by_cases h : is = []
  · subst h
    exact Nat.le_refl _
  · rw [below_items h, List.length_append]
    exact Nat.le_add_left _ _

/-- What a node adds to a text is enough for its tokens. -/
def Roomy (n : Node) : Prop :=
  ∀ column after, (lexemes n).length + 4 * after.length ≤ 4 * (nodeText column n after).length

theorem roomy_entries (h : ∀ e ∈ es, Roomy e.2) (column : Nat) (after : List Char) :
    (entriesLexemes es).length + 4 * es.length + 4 * after.length ≤
      4 * (placed column (entriesLines .plain es) after).length := by
  induction es with
  | nil => exact Nat.le_of_eq (by simp [entriesLexemes, entriesLines, placed])
  | cons e es ih =>
      rw [List.forall_mem_cons] at h
      have hrest := ih h.2
      have hbelow := length_below_entries column es after
      obtain ⟨column', hvalue⟩ :=
        length_valueText column e.2 (below column (entriesLines .plain es) after)
      have hnode := h.1 column' (below column (entriesLines .plain es) after)
      have htext := congrArg List.length
        (placed_entry column e.1 e.2 (entriesLines .plain es) after)
      have hkey := one_le_length_keyText e.1
      have hlexemes : (entriesLexemes (e :: es)).length =
          3 + ((lexemes e.2).length + (entriesLexemes es).length) := by
        simp [entriesLexemes]
        omega
      rw [List.length_append, List.length_cons] at htext
      show _ ≤
        4 * (placed column (entryLines .plain e.1 e.2 ++ entriesLines .plain es) after).length
      rw [hlexemes, List.length_cons]
      omega

theorem roomy_items (h : ∀ n ∈ is, Roomy n) (column : Nat) (after : List Char) :
    (itemsLexemes is).length + 4 * is.length + 4 * after.length ≤
      4 * (placed column (itemsLines .plain is) after).length := by
  induction is with
  | nil => exact Nat.le_of_eq (by simp [itemsLexemes, itemsLines, placed])
  | cons n is ih =>
      rw [List.forall_mem_cons] at h
      have hrest := ih h.2
      have hbelow := length_below_items column is after
      have hnode := h.1 (if isBlock n then column + 2 else column)
        (below column (itemsLines .plain is) after)
      have htext := congrArg List.length (placed_item column n (itemsLines .plain is) after)
      have hlexemes : (itemsLexemes (n :: is)).length =
          1 + ((lexemes n).length + (itemsLexemes is).length) := by
        simp [itemsLexemes]
        omega
      rw [List.length_cons, List.length_cons] at htext
      show _ ≤ 4 * (placed column (itemLines .plain n ++ itemsLines .plain is) after).length
      rw [hlexemes, List.length_cons]
      omega

/-- A node has at most four tokens for every character. -/
theorem roomy (n : Node) : Roomy n := by
  induction n using Node.induct with
  | mapping es p ih =>
      intro column after
      by_cases hes : es = []
      · subst hes
        show 2 + 4 * after.length ≤ 4 * (after.length + 3)
        omega
      · have hentries := roomy_entries ih column after
        have hpos := List.length_pos_of_ne_nil hes
        rw [lexemes_entries hes, nodeText_entries hes, List.length_cons, List.length_append,
          List.length_singleton]
        omega
  | sequence is p ih =>
      intro column after
      by_cases his : is = []
      · subst his
        show 2 + 4 * after.length ≤ 4 * (after.length + 3)
        omega
      · have hitems := roomy_items ih column after
        have hpos := List.length_pos_of_ne_nil his
        rw [lexemes_items his, nodeText_items his, List.length_cons, List.length_append,
          List.length_singleton]
        omega
  | scalar v p =>
      intro column after
      have htext := placed_length (nodeLines_ne_nil .plain (.scalar v p)) column after
      show 1 + 4 * after.length ≤ 4 * (placed column (nodeLines .plain (.scalar v p)) after).length
      omega

/-! ### Blocks that stay open -/

variable {S : List Nat} {provisional allowed : Bool} {c d e m : Nat} {r : List Char}
  {ls : List Lexeme}

theorem openAt_of_le (h : level S ≤ d) : openAt d S = S := by
  cases S with
  | nil => rfl
  | cons e S =>
      have hle : ¬(d : Int) < e := Int.not_lt.mpr h
      exact List.dropWhile_cons_of_neg (by simpa using hle)

theorem ends_of_le (h : level S ≤ d) : ends d S = [] := by
  cases S with
  | nil => rfl
  | cons e S =>
      have hle : ¬(d : Int) < e := Int.not_lt.mpr h
      rw [ends, List.takeWhile_cons_of_neg (by simpa using hle)]
      rfl

theorem openAt_cons (h : m < d) (S : List Nat) : openAt m (d :: S) = openAt m S := by
  have hlt : (m : Int) < d := by omega
  exact List.dropWhile_cons_of_pos (by simpa using hlt)

theorem ends_cons (h : m < d) (S : List Nat) : ends m (d :: S) = .blockEnd :: ends m S := by
  have hlt : (m : Int) < d := by omega
  rw [ends, List.takeWhile_cons_of_pos (by simpa using hlt)]
  rfl

/-! ### Leaves -/

/-- Inside a block, the tokens of a node are read from its text. -/
def Passes (n : Node) : Prop :=
  ∀ {S : List Nat} {provisional allowed : Bool} {c e m : Nat} {r : List Char} {ls : List Lexeme},
    S ≠ [] → level S < c → level S ≤ e → (isBlock n = true → c = e ∧ allowed = true) →
    Ends S m r → Stops r →
    Way (standing S provisional allowed c (nodeText e n (List.replicate m ' ' ++ r)) ls)
      (standing (openAt m S) false true m r (ls ++ lexemes n ++ ends m S))

/-- A node that is no block is read anywhere, except that at the margin it must not look like the
marker of a document. -/
theorem way_leaf (h : Legible n) (hblock : isBlock n = false) (hc : level S < c) (he : level S ≤ e)
    (hn : Ends S m r) (hr : Stops r) (hprovisional : S = [] → provisional = false)
    (hmarker : c = 0 →
      (Cursor.ofText (nodeText e n (List.replicate m ' ' ++ r))).isMarker = false) :
    Way (standing S provisional allowed c (nodeText e n (List.replicate m ' ' ++ r)) ls)
      (standing (openAt m S) false true m r (ls ++ lexemes n ++ ends m S)) := by
  cases h with
  | @mapping es p hkeys h =>
      obtain rfl : es = [] := by simpa [isBlock] using hblock
      exact way_empty .mapping hc hn hr hprovisional
  | @sequence is p h =>
      obtain rfl : is = [] := by simpa [isBlock] using hblock
      exact way_empty .sequence hc hn hr hprovisional
  | @scalar v p h =>
      by_cases hliteral : ∃ s, v = .literal s
      · obtain ⟨s, rfl⟩ := hliteral
        obtain ⟨chomping, hheader, hsets, htext, hclip⟩ := h.isBlockText.exists_sets
        have hway : Leads (standing S provisional allowed c _ ls) _ :=
          leads_block (w := e + 2) hsets (fun heq hnil => absurd hnil (hclip heq)) (by omega) hc hn
            hr
        rw [htext, String.ofList_toList] at hway
        rw [nodeText_literal, hheader]
        exact .single hway
      · have hv : ∀ s, v ≠ .literal s := fun s hs => hliteral ⟨s, hs⟩
        obtain ⟨style, u, hinline, hlexeme⟩ := h.inline hv
        rw [nodeText_scalar hv] at hmarker ⊢
        rw [lexemes, hlexeme]
        exact .single (leads_inline hinline hc hn hr hprovisional hmarker)

/-! ### Entries -/

/-- The value of a key, from the colon on. -/
theorem way_value {token : Lexeme} (h : Legible n) (hn : Passes n) (hd : indentOf S provisional ≤ d)
    (hc : d ≤ c) (hm : Ends (opened d S) m r) (hr : Stops r) :
    Way (atColon S provisional c (':' :: valueText d n (List.replicate m ' ' ++ r)) ls token d)
      (standing (openAt m (opened d S)) false true m r
        (ls ++ (begins d S .blockMappingStart ++ [.key, token, .value]) ++ lexemes n ++
          ends m (opened d S))) := by
  have hlevel := level_opened (S := S) (Int.le_trans (level_le_indentOf S provisional) hd)
  have hne := opened_ne_nil d S
  have hstops := h.stops
  unfold valueText
  split
  · refine .head (leads_valueBelow (hstops _ _) hd hc (by omega)) ?_
    exact hn hne (by omega) (by omega) (fun _ => ⟨rfl, rfl⟩) hm hr
  · rename_i hblock
    refine .head (leads_value (hstops _ _) hd hc) ?_
    exact hn hne (by omega) (by omega) (fun h => absurd h hblock) hm hr

/-- An entry. -/
theorem way_entry (ls : List Lexeme) (hk : LegibleKey k) (h : Legible n) (hn : Passes n)
    (hd : indentOf S provisional ≤ d)
    (hmarker : d = 0 → (Cursor.ofText ((keyText k).toList ++ [':'])).isMarker = false)
    (hm : Ends (opened d S) m r) (hr : Stops r) :
    Way (standing S provisional true d
        ((keyText k).toList ++ ':' :: valueText d n (List.replicate m ' ' ++ r)) ls)
      (standing (openAt m (opened d S)) false true m r
        (ls ++ (begins d S .blockMappingStart ++ [.key, keyLexeme k, .value]) ++ lexemes n ++
          ends m (opened d S))) := by
  have hgap : isGap ((valueText d n (List.replicate m ' ' ++ r)).headD '\x00') = true := by
    unfold valueText
    split <;> rfl
  have hkey : Leads (standing S provisional true d _ ls) _ :=
    leads_key hk.inline hgap hk.length_le hd fun hzero => by
      rw [isMarker_append (by decide) (by decide)]
      exact hmarker hzero
  rw [String.ofList_toList] at hkey
  refine .head hkey (way_value h hn ?_ (Nat.le_add_right _ _) hm hr)
  cases hprov : keyStyle k != .plain && provisional with
  | false => exact Int.le_trans (level_le_indentOf S provisional) hd
  | true =>
      rw [Bool.and_eq_true] at hprov
      rw [← hprov.2]
      exact hd

/-- What comes after an entry or item of a block, if it is no further entry or item of it. -/
theorem ends_opened (hlevel : level S ≤ d) : Ends (opened d S) d r :=
  .inl (Int.le_of_eq (level_opened hlevel).symm)

/-- A block that is open at a column neither ends nor begins there. -/
theorem stays_open (hlevel : level S ≤ d) (opening : Lexeme) :
    openAt d (opened d S) = opened d S ∧ ends d (opened d S) = [] ∧
      opened d (opened d S) = opened d S ∧ begins d (opened d S) opening = [] := by
  have hlevel' := level_opened hlevel
  refine ⟨openAt_of_le (Int.le_of_eq hlevel'), ends_of_le (Int.le_of_eq hlevel'), ?_, ?_⟩
  · rw [opened, hlevel', if_neg (Int.lt_irrefl _)]
  · rw [begins, hlevel', if_neg (Int.lt_irrefl _)]

/-- The entries of a mapping. -/
theorem way_entries (ls : List Lexeme) (hes : es ≠ []) (hkeys : ∀ e ∈ es, LegibleKey e.1)
    (hlegible : ∀ e ∈ es, Legible e.2) (hvalues : ∀ e ∈ es, Passes e.2)
    (hd : indentOf S provisional ≤ d)
    (hmarker : d = 0 → ∀ e ∈ es, (Cursor.ofText ((keyText e.1).toList ++ [':'])).isMarker = false)
    (hm : Ends (opened d S) m r) (hr : Stops r) :
    Way (standing S provisional true d
        (placed d (entriesLines .plain es) (List.replicate m ' ' ++ r)) ls)
      (standing (openAt m (opened d S)) false true m r
        (ls ++ begins d S .blockMappingStart ++ entriesLexemes es ++ ends m (opened d S))) := by
  induction es generalizing S provisional ls with
  | nil => exact absurd rfl hes
  | cons entry es ih =>
      obtain ⟨k, n⟩ := entry
      rw [List.forall_mem_cons] at hkeys hlegible hvalues
      have hmarker' : d = 0 → (Cursor.ofText ((keyText k).toList ++ [':'])).isMarker = false :=
        fun hzero => hmarker hzero (k, n) (List.mem_cons_self ..)
      have hlevel := Int.le_trans (level_le_indentOf S provisional) hd
      show Way (standing S provisional true d (placed d (entryLines .plain k n ++
        entriesLines .plain es) (List.replicate m ' ' ++ r)) ls) _
      rw [placed_entry]
      by_cases hnil : es = []
      · subst hnil
        have hway := way_entry ls hkeys.1 hlegible.1 hvalues.1 hd hmarker' hm hr
        simpa [entriesLexemes, entriesLines, below, setLines] using hway
      · -- the next entry finds the block open
        rw [below_entries hnil]
        obtain ⟨hopen, hends, hopened, hbegins⟩ := stays_open hlevel .blockMappingStart
        have hinside : indentOf (opened d S) false ≤ d := Int.le_of_eq (level_opened hlevel)
        have hstops : Stops (placed d (entriesLines .plain es) (List.replicate m ' ' ++ r)) := by
          rw [← nodeText_entries hnil ⟨"", 0, 0, ""⟩]
          exact (Legible.mapping hkeys.2 hlegible.2).stops _ _
        have hway := way_entry ls hkeys.1 hlegible.1 hvalues.1 hd hmarker'
          (ends_opened hlevel) hstops
        rw [hopen, hends, List.append_nil] at hway
        refine hway.trans ?_
        have hrest := ih
          (ls ++ (begins d S .blockMappingStart ++ [.key, keyLexeme k, .value]) ++ lexemes n)
          hnil hkeys.2 hlegible.2 hvalues.2 hinside
          (fun hzero e he => hmarker hzero e (List.mem_cons_of_mem _ he)) (by rwa [hopened])
        rw [hopened, hbegins] at hrest
        simpa [entriesLexemes] using hrest

/-! ### Items -/

/-- An item. -/
theorem way_item (ls : List Lexeme) (h : Legible n) (hn : Passes n)
    (hd : indentOf S provisional ≤ d)
    (hm : Ends (opened d S) m r) (hr : Stops r) :
    Way (standing S provisional true d ('-' :: ' ' ::
        nodeText (if isBlock n then d + 2 else d) n (List.replicate m ' ' ++ r)) ls)
      (standing (openAt m (opened d S)) false true m r
        (ls ++ (begins d S .blockSequenceStart ++ [.blockEntry]) ++ lexemes n ++
          ends m (opened d S))) := by
  have hlevel := level_opened (S := S) (Int.le_trans (level_le_indentOf S provisional) hd)
  obtain ⟨ch, x, htext, hgap, hcomment⟩ :=
    h.exists_first (if isBlock n then d + 2 else d) (List.replicate m ' ' ++ r)
  have hitem : Leads (standing S provisional true d ('-' :: ' ' :: ch :: x) ls) _ :=
    leads_item hgap hcomment hd
  rw [← htext] at hitem
  refine .head hitem (hn (opened_ne_nil d S) (by omega) ?_ ?_ hm hr)
  · split <;> omega
  · intro hblock
    rw [if_pos hblock]
    exact ⟨rfl, rfl⟩

/-- The items of a sequence. -/
theorem way_items (ls : List Lexeme) (his : is ≠ []) (hlegible : ∀ n ∈ is, Legible n)
    (hvalues : ∀ n ∈ is, Passes n)
    (hd : indentOf S provisional ≤ d) (hm : Ends (opened d S) m r) (hr : Stops r) :
    Way (standing S provisional true d
        (placed d (itemsLines .plain is) (List.replicate m ' ' ++ r)) ls)
      (standing (openAt m (opened d S)) false true m r
        (ls ++ begins d S .blockSequenceStart ++ itemsLexemes is ++ ends m (opened d S))) := by
  induction is generalizing S provisional ls with
  | nil => exact absurd rfl his
  | cons n is ih =>
      rw [List.forall_mem_cons] at hlegible hvalues
      have hlevel := Int.le_trans (level_le_indentOf S provisional) hd
      show Way (standing S provisional true d (placed d (itemLines .plain n ++
        itemsLines .plain is) (List.replicate m ' ' ++ r)) ls) _
      rw [placed_item]
      by_cases hnil : is = []
      · subst hnil
        have hway := way_item ls hlegible.1 hvalues.1 hd hm hr
        simpa [itemsLexemes, itemsLines, below, setLines] using hway
      · rw [below_items hnil]
        have hstops : Stops (placed d (itemsLines .plain is) (List.replicate m ' ' ++ r)) := by
          rw [← nodeText_items hnil ⟨"", 0, 0, ""⟩]
          exact (Legible.sequence hlegible.2).stops _ _
        have hway := way_item ls hlegible.1 hvalues.1 hd (ends_opened hlevel) hstops
        obtain ⟨hopen, hends, hopened, hbegins⟩ := stays_open hlevel .blockSequenceStart
        have hinside : indentOf (opened d S) false ≤ d := Int.le_of_eq (level_opened hlevel)
        rw [hopen, hends, List.append_nil] at hway
        refine hway.trans ?_
        have hrest := ih (ls ++ (begins d S .blockSequenceStart ++ [.blockEntry]) ++ lexemes n) hnil
          hlegible.2 hvalues.2 hinside (by rwa [hopened])
        rw [hopened, hbegins] at hrest
        simpa [itemsLexemes] using hrest

/-! ### Nodes -/

/-- A block ends where a line begins that does not belong to what it is in. -/
theorem ends_of_outer (hc : level S < c) (hm : Ends S m r) (hS : S ≠ []) :
    opened c S = c :: S ∧ m < c ∧ Ends (opened c S) m r := by
  have hopened : opened c S = c :: S := by rw [opened, if_pos hc]
  have hlt : m < c := by
    rcases hm with hle | ⟨hnil, -⟩
    · omega
    · exact absurd hnil hS
  refine ⟨hopened, hlt, .inl ?_⟩
  rw [hopened]
  show (m : Int) ≤ c
  omega

/-- **Inside a block, the tokens of a node are read from its text.** -/
theorem passes (h : Legible n) : Passes n := by
  induction n using Node.induct with
  | mapping es p ih =>
      intro S provisional allowed c e m r ls hS hc he hblock hm hr
      by_cases hes : es = []
      · subst hes
        exact way_leaf h rfl hc he hm hr (absurd · hS)
          (fun hzero => absurd hzero (ne_zero_of_inside hS hc))
      · obtain ⟨rfl, rfl⟩ := hblock (by simpa [isBlock] using hes)
        obtain ⟨hopened, hlt, hm'⟩ := ends_of_outer hc hm hS
        cases h with
        | mapping hkeys hvalues =>
            have hway := way_entries ls hes hkeys hvalues (fun e he => ih e he (hvalues e he))
              (show indentOf S provisional ≤ c from indentOf_le hc)
              (fun hzero => absurd hzero (ne_zero_of_inside hS hc)) hm' hr
            rw [hopened, openAt_cons hlt, ends_cons hlt, begins, if_pos hc] at hway
            rw [nodeText_entries hes, lexemes_entries hes]
            simpa using hway
  | sequence is p ih =>
      intro S provisional allowed c e m r ls hS hc he hblock hm hr
      by_cases his : is = []
      · subst his
        exact way_leaf h rfl hc he hm hr (absurd · hS)
          (fun hzero => absurd hzero (ne_zero_of_inside hS hc))
      · obtain ⟨rfl, rfl⟩ := hblock (by simpa [isBlock] using his)
        obtain ⟨hopened, hlt, hm'⟩ := ends_of_outer hc hm hS
        cases h with
        | sequence hitems =>
            have hway := way_items ls his hitems (fun n hn => ih n hn (hitems n hn))
              (show indentOf S provisional ≤ c from indentOf_le hc) hm' hr
            rw [hopened, openAt_cons hlt, ends_cons hlt, begins, if_pos hc] at hway
            rw [nodeText_items his, lexemes_items his]
            simpa using hway
  | scalar v p =>
      intro S provisional allowed c e m r ls hS hc he hblock hm hr
      exact way_leaf h rfl hc he hm hr (absurd · hS)
        (fun hzero => absurd hzero (ne_zero_of_inside hS hc))

/-! ### Texts -/

/-- A way from the beginning of a text to its end, where all open blocks close. -/
theorem tokens_of_way {cs : List Char} (hr : Stops cs)
    (hway : Way (standing [] false true 0 cs [.streamStart])
      (standing S provisional allowed d [] ls))
    (hlength : ls.length + S.length ≤ 4 * cs.length + 7) :
    (Scan.ofText cs).tokens.map Token.lexeme =
        ls ++ List.replicate S.length .blockEnd ++ [.streamEnd] ∧
      (Scan.ofText cs).fault = none := by
  obtain ⟨s, hsettle, hs⟩ := settle_ofText hr
  refine Scan.ofText_of_way hway hsettle hs (fun s hs => dispatch_end hs rfl) ?_ ?_
  · rw [List.length_append]
    exact Nat.le_add_right _ _
  · rwa [List.length_append, List.length_replicate]

theorem ClearOfMarkers.leaf (hclear : ClearOfMarkers n) (hblock : isBlock n = false) :
    (Cursor.ofText (nodeText 0 n [])).isMarker = false := by
  cases n with
  | mapping es p =>
      obtain rfl : es = [] := by simpa [isBlock] using hblock
      exact isMarker_cons (by decide) (by decide)
  | sequence is p =>
      obtain rfl : is = [] := by simpa [isBlock] using hblock
      exact isMarker_cons (by decide) (by decide)
  | scalar v p =>
      cases v with
      | literal s =>
          obtain ⟨chomping, hheader, -⟩ := exists_blockParts s
          rw [nodeText_literal, hheader]
          exact isMarker_cons (by decide) (by decide)
      | string | integer | float | bool | null => exact hclear.resolve_left (by simp [Scalar.kind])

/-- A way through the text of a node; a block at the margin is closed by the end of the text. -/
theorem exists_way (h : Legible n) (hclear : ClearOfMarkers n) :
    ∃ S ls, Way (standing [] false true 0 (nodeText 0 n []) [.streamStart])
        (standing S false true 0 [] ls) ∧
      ls ++ List.replicate S.length .blockEnd = .streamStart :: lexemes n := by
  by_cases hblock : isBlock n = true
  · cases h with
    | @mapping es p hkeys hvalues =>
        have hes : es ≠ [] := by simpa [isBlock] using hblock
        have hway : Way
            (standing [] false true 0 (placed 0 (entriesLines .plain es) []) [.streamStart])
            (standing [0] false true 0 []
              ([.streamStart, .blockMappingStart] ++ entriesLexemes es ++ [])) :=
          way_entries _ hes hkeys hvalues (fun e he => passes (hvalues e he))
            (show indentOf [] false ≤ ((0 : Nat) : Int) by decide) (fun _ => hclear)
            (.inl (Int.le_refl _)) stops_nil
        rw [nodeText_entries hes, lexemes_entries hes]
        exact ⟨_, _, hway, by simp⟩
    | @sequence is p hitems =>
        have his : is ≠ [] := by simpa [isBlock] using hblock
        have hway : Way
            (standing [] false true 0 (placed 0 (itemsLines .plain is) []) [.streamStart])
            (standing [0] false true 0 []
              ([.streamStart, .blockSequenceStart] ++ itemsLexemes is ++ [])) :=
          way_items _ his hitems (fun n hn => passes (hitems n hn))
            (show indentOf [] false ≤ ((0 : Nat) : Int) by decide) (.inl (Int.le_refl _)) stops_nil
        rw [nodeText_items his, lexemes_items his]
        exact ⟨_, _, hway, by simp⟩
    | scalar h => cases hblock
  · have hblock' : isBlock n = false := by simpa using hblock
    have hway : Way (standing [] false true 0 (nodeText 0 n []) [.streamStart])
        (standing [] false true 0 [] ([.streamStart] ++ lexemes n ++ [])) :=
      way_leaf h hblock' (by decide) (by decide) (.inr ⟨rfl, rfl, rfl⟩) stops_nil (fun _ => rfl)
        (fun _ => hclear.leaf hblock')
    exact ⟨_, _, hway, by simp⟩

/-- **The tokens of a node's text are those of the node**, between the beginning and the end of the
text. -/
theorem tokens_nodeText (h : Legible n) (hclear : ClearOfMarkers n) :
    (Scan.ofText (nodeText 0 n [])).tokens.map Token.lexeme =
        .streamStart :: (lexemes n ++ [.streamEnd]) ∧
      (Scan.ofText (nodeText 0 n [])).fault = none := by
  obtain ⟨S, ls, hway, hlexemes⟩ := exists_way h hclear
  have hlength : ls.length + S.length = (lexemes n).length + 1 := by
    simpa using congrArg List.length hlexemes
  have hroom := roomy n 0 []
  rw [List.length_nil] at hroom
  obtain ⟨htokens, hfault⟩ := tokens_of_way (h.stops 0 []) hway (by omega)
  rw [hlexemes] at htokens
  exact ⟨htokens, hfault⟩

end Emitter

end YamlDelta
