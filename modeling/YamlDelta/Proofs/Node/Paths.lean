/-
Paths are locations.

A path is a row of segments, one for each step from the root.  Every segment begins with
a dot or a bracket, and a key in which one of these could be mistaken for the next segment
stands between quotes; so the row can be taken apart from the left in one way only.  Hence
two locations with one path are one location, and a path goes on from another exactly if
the one location lies below the other.

The nodes of a document are placed rightly when each has the path of its location.  That
is said by `Placed`: moving the tree to the path where it stands changes nothing.
-/
import Mathlib.Data.List.Infix
import YamlDelta.Proofs.Node.Location
import YamlDelta.Proofs.Text.Quoted

namespace YamlDelta

namespace Path

/-! ### Segments -/

/-- The characters that a step adds to a path. -/
def segment : Step → List Char
  | .key k => '.' :: (if isAmbiguous k then Text.singleQuoted k else k).toList
  | .index i => '[' :: (Nat.toDigits 10 i ++ [']'])

/-- The path that a list of steps leads to from a node with the given path. -/
def extend (parent : String) (p : List Step) : String :=
  p.foldl step parent

@[simp] theorem extend_nil (parent : String) : extend parent [] = parent := rfl

@[simp] theorem extend_cons (parent : String) (s : Step) (p : List Step) :
    extend parent (s :: p) = extend (step parent s) p := rfl

theorem extend_root (p : List Step) : extend "" p = render p := rfl

theorem toList_step (parent : String) (s : Step) :
    (step parent s).toList = parent.toList ++ segment s := by
  cases s with
  | key k => simp [step, key, segment]
  | index i => simp [step, index, segment]

theorem toList_extend (parent : String) (p : List Step) :
    (extend parent p).toList = parent.toList ++ p.flatMap segment := by
  induction p generalizing parent with
  | nil => simp
  | cons s p ih => rw [extend_cons, ih, toList_step, List.flatMap_cons, List.append_assoc]

theorem toList_render (p : List Step) : (render p).toList = p.flatMap segment := by
  rw [← extend_root, toList_extend]
  rfl

/-- A character that begins a segment. -/
def isOpening (c : Char) : Bool :=
  c == '.' || c == '['

/-- Nothing, or what begins like a segment. -/
def Continues (x : List Char) : Prop :=
  ∀ c, x.head? = some c → isOpening c = true

theorem segment_head? (s : Step) (x : List Char) :
    ∃ c, (segment s ++ x).head? = some c ∧ isOpening c = true := by
  cases s with
  | key k => exact ⟨'.', rfl, rfl⟩
  | index i => exact ⟨'[', rfl, rfl⟩

theorem continues_segments (p : List Step) : Continues (p.flatMap segment) := by
  cases p with
  | nil => simp [Continues]
  | cons s p =>
      intro c hc
      obtain ⟨d, hd, hopening⟩ := segment_head? s (p.flatMap segment)
      rw [List.flatMap_cons, hd] at hc
      cases hc
      exact hopening

theorem continues_append {p : List Step} {x : List Char} (hx : Continues x) :
    Continues (p.flatMap segment ++ x) := by
  cases p with
  | nil => exact hx
  | cons s p =>
      intro c hc
      obtain ⟨d, hd, hopening⟩ := segment_head? s (p.flatMap segment ++ x)
      rw [List.flatMap_cons, List.append_assoc, hd] at hc
      cases hc
      exact hopening

/-! ### Reading segments back -/

theorem Continues.head?_ne_quote {x : List Char} (hx : Continues x) : x.head? ≠ some '\'' := by
  intro h
  have hopening := hx _ h
  cases hopening

theorem not_special_of_plain {k : String} (h : isAmbiguous k = false) :
    ∀ c ∈ k.toList, isSpecial c = false := by
  simp only [isAmbiguous, Bool.or_eq_false_iff, List.any_eq_false, Bool.not_eq_true] at h
  exact h.2

theorem isOpening_of_special {c : Char} (h : isSpecial c = false) : isOpening c = false := by
  simp only [isSpecial, Bool.or_eq_false_iff] at h
  simp [isOpening, h.1.1.1.1, h.1.1.1.2]

/-- A key that is not quoted does not begin with a quote. -/
theorem plain_head? {k : String} (h : isAmbiguous k = false) (x : List Char) :
    (k.toList ++ x).head? ≠ some '\'' := by
  have hspecial := not_special_of_plain h
  cases hk : k.toList with
  | nil => simp [isAmbiguous, ← String.toList_inj, hk] at h
  | cons c cs =>
      rw [hk] at hspecial
      have hc := hspecial c (List.mem_cons_self ..)
      intro hhead
      cases Option.some.inj hhead
      cases hc

theorem singleQuoted_head? (k : String) (x : List Char) :
    ((Text.singleQuoted k).toList ++ x).head? = some '\'' := by
  simp [Text.singleQuoted]

theorem key_append_inj {k l : String} {x y : List Char} (hx : Continues x) (hy : Continues y)
    (h : segment (.key k) ++ x = segment (.key l) ++ y) : k = l ∧ x = y := by
  simp only [segment, List.cons_append, List.cons.injEq, true_and] at h
  cases hk : isAmbiguous k <;> cases hl : isAmbiguous l <;>
    simp only [hk, hl, if_true, Bool.false_eq_true, if_false] at h
  case true.true =>
    exact Text.singleQuoted_append_inj hx.head?_ne_quote hy.head?_ne_quote h
  case true.false =>
    refine absurd ?_ (plain_head? hl y)
    rw [← h, singleQuoted_head?]
  case false.true =>
    refine absurd ?_ (plain_head? hk x)
    rw [h, singleQuoted_head?]
  case false.false =>
    obtain ⟨hkl, hxy⟩ := Text.run_append_inj (p := fun c => !isOpening c)
      (fun c hc => by simp [isOpening_of_special (not_special_of_plain hk c hc)])
      (fun c hc => by simp [isOpening_of_special (not_special_of_plain hl c hc)])
      (fun c hc => by simp [hx c hc]) (fun c hc => by simp [hy c hc]) h
    exact ⟨String.toList_inj.mp hkl, hxy⟩

theorem index_append_inj {i j : Nat} {x y : List Char}
    (h : segment (.index i) ++ x = segment (.index j) ++ y) : i = j ∧ x = y := by
  simp only [segment, List.cons_append, List.append_assoc, List.nil_append,
    List.cons.injEq, true_and] at h
  have hdigit : ∀ n, ∀ c ∈ Nat.toDigits 10 n, c.isDigit = true := fun n c hc =>
    Nat.isDigit_of_mem_toDigits (by decide) (by decide) hc
  obtain ⟨hij, hxy⟩ := Text.run_append_inj (hdigit i) (hdigit j)
    (by rintro _ ⟨⟩; rfl) (by rintro _ ⟨⟩; rfl) h
  have hnat := congrArg (Nat.ofDigitChars 10 · 0) hij
  simp only [Nat.ofDigitChars_ten_toDigits] at hnat
  exact ⟨hnat, (List.cons.inj hxy).2⟩

/-- A segment tells its step, up to the next one. -/
theorem segment_append_inj {s t : Step} {x y : List Char} (hx : Continues x) (hy : Continues y)
    (h : segment s ++ x = segment t ++ y) : s = t ∧ x = y := by
  cases s with
  | key k =>
      cases t with
      | key l =>
          obtain ⟨rfl, rfl⟩ := key_append_inj hx hy h
          exact ⟨rfl, rfl⟩
      | index j => exact absurd (List.cons.inj h).1 (by decide)
  | index i =>
      cases t with
      | key l => exact absurd (List.cons.inj h).1 (by decide)
      | index j =>
          obtain ⟨rfl, rfl⟩ := index_append_inj h
          exact ⟨rfl, rfl⟩

/-- **A row of segments is taken apart in one way only.** -/
theorem segments_append {p q : List Step} {x : List Char} (hx : Continues x)
    (h : p.flatMap segment ++ x = q.flatMap segment) :
    ∃ r, q = p ++ r ∧ x = r.flatMap segment := by
  induction p generalizing q with
  | nil => exact ⟨q, rfl, h⟩
  | cons s p ih =>
      cases q with
      | nil =>
          obtain ⟨c, hc, -⟩ := segment_head? s (p.flatMap segment ++ x)
          rw [List.flatMap_cons, List.append_assoc] at h
          rw [h] at hc
          cases hc
      | cons t q =>
          rw [List.flatMap_cons, List.flatMap_cons, List.append_assoc] at h
          obtain ⟨rfl, htail⟩ := segment_append_inj (continues_append hx) (continues_segments q) h
          obtain ⟨r, rfl, hr⟩ := ih htail
          exact ⟨r, rfl, hr⟩

theorem segments_eq_nil {p : List Step} (h : p.flatMap segment = []) : p = [] := by
  cases p with
  | nil => rfl
  | cons s p =>
      obtain ⟨c, hc, -⟩ := segment_head? s (p.flatMap segment)
      rw [List.flatMap_cons] at h
      rw [h] at hc
      cases hc

/-- Locations with one path are one location. -/
theorem render_inj {p q : List Step} (h : render p = render q) : p = q := by
  rw [← String.toList_inj, toList_render, toList_render] at h
  obtain ⟨r, rfl, hr⟩ :=
    segments_append (x := []) (by simp [Continues]) ((List.append_nil _).trans h)
  rw [segments_eq_nil hr.symm, List.append_nil]

/-- A path goes on from another exactly if the text behind it begins like a segment. -/
theorem isBelow_iff {path longer : String} :
    isBelow path longer = true ↔
      ∃ c rest, longer.toList = path.toList ++ c :: rest ∧ (c = '.' ∨ c = '[') := by
  rw [isBelow, Bool.and_eq_true, List.isPrefixOf_iff_prefix]
  constructor
  · rintro ⟨⟨x, hx⟩, hopening⟩
    rw [← hx, List.drop_left] at hopening
    cases x with
    | nil => cases hopening
    | cons c x => exact ⟨c, x, hx.symm, by simpa using hopening⟩
  · rintro ⟨c, rest, hlonger, hopening⟩
    rw [hlonger, List.drop_left]
    exact ⟨List.prefix_append _ _, by simpa using hopening⟩

/-- A path goes on from another exactly if its location lies below the other's. -/
theorem isBelow_render {p q : List Step} :
    isBelow (render p) (render q) = true ↔ p <+: q ∧ p ≠ q := by
  rw [isBelow_iff, toList_render, toList_render]
  constructor
  · rintro ⟨c, x, hx, hopening⟩
    obtain ⟨r, rfl, hr⟩ :=
      segments_append (x := c :: x) (by rintro _ ⟨⟩; simpa [isOpening] using hopening) hx.symm
    refine ⟨List.prefix_append p r, fun hpr => ?_⟩
    rw [List.self_eq_append_right.mp hpr] at hr
    cases hr
  · rintro ⟨⟨r, rfl⟩, hne⟩
    cases r with
    | nil => exact absurd (List.append_nil p).symm hne
    | cons s r =>
        obtain ⟨c, hc, hopening⟩ := segment_head? s (r.flatMap segment)
        obtain ⟨rest, hrest⟩ := List.head?_eq_some_iff.mp hc
        refine ⟨c, rest, ?_, by simpa [isOpening] using hopening⟩
        rw [List.flatMap_append, List.flatMap_cons, hrest]

/-- **Paths are locations.**  Two locations have one path only if they are one location, and the
path of a location is another one's path with a text behind it that begins with a dot or a bracket
exactly if it lies below the other. -/
theorem paths_identify_locations (p q : List Step) :
    (render p = render q ↔ p = q) ∧
      ((∃ c rest, (render q).toList = (render p).toList ++ c :: rest ∧ (c = '.' ∨ c = '[')) ↔
        p <+: q ∧ p ≠ q) ∧
      (isBelow (render p) (render q) = true ↔ p <+: q ∧ p ≠ q) := by
  refine ⟨⟨render_inj, congrArg render⟩, ?_, isBelow_render⟩
  rw [← isBelow_iff]
  exact isBelow_render

end Path

namespace Node

/-! ### Nodes at the paths of their locations -/

/-- The node has the given path and every node below has the path that leads to it from there. -/
def Placed (path : String) (n : Node) : Prop :=
  n.withPath path = n

theorem Placed.path_eq {path : String} {n : Node} (h : n.Placed path) : n.path = path := by
  rw [← h, path_withPath]

theorem withPath_lookup (parent key : String) (es : List (String × Node)) :
    lookup key (entriesUnder parent es) =
      (lookup key es).map (·.withPath (Path.key parent key)) := by
  induction es with
  | nil => rfl
  | cons e es ih =>
      obtain ⟨k, n⟩ := e
      rw [entriesUnder, lookup_cons, lookup_cons, ih]
      cases lookup key es with
      | some m => rfl
      | none =>
          by_cases hk : k = key
          · simp [hk]
          · simp [hk]

theorem getElem?_itemsUnder (parent : String) (first i : Nat) (is : List Node) :
    (itemsUnder parent first is)[i]? =
      is[i]?.map (·.withPath (Path.index parent (first + i))) := by
  induction is generalizing first i with
  | nil => rfl
  | cons n is ih =>
      cases i with
      | zero => rfl
      | succ i =>
          rw [itemsUnder, List.getElem?_cons_succ, List.getElem?_cons_succ, ih,
            Nat.add_right_comm, Nat.add_assoc]

/-- Moving a tree moves its children along. -/
theorem child?_withPath (n : Node) (path : String) (s : Step) :
    (n.withPath path).child? s = (n.child? s).map (·.withPath (Path.step path s)) := by
  cases n with
  | mapping es p =>
      cases s with
      | key k => exact withPath_lookup path k es
      | index i => rfl
  | sequence is p =>
      cases s with
      | key k => rfl
      | index i =>
          have hitem := getElem?_itemsUnder path 0 i is
          rw [Nat.zero_add] at hitem
          exact hitem
  | scalar v p => simp [withPath]

theorem Placed.child {path : String} {n c : Node} {s : Step} (h : n.Placed path)
    (hc : n.child? s = some c) : c.Placed (Path.step path s) := by
  have hmoved := child?_withPath n path s
  rw [h, hc] at hmoved
  exact (Option.some.inj hmoved).symm

theorem Placed.at? {path : String} {n m : Node} {p : List Step} (h : n.Placed path)
    (hm : Node.at? (some n) p = some m) : m.Placed (Path.extend path p) := by
  induction p generalizing path n with
  | nil =>
      cases hm
      exact h
  | cons s p ih =>
      rw [at?_cons, Option.bind_some] at hm
      cases hc : n.child? s with
      | none => simp [hc] at hm
      | some c =>
          rw [hc] at hm
          exact ih (h.child hc) hm

end Node

end YamlDelta
