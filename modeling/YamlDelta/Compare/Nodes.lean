/-
Comparing two trees.

Mappings are compared key by key, each key standing for its last value; sequences item
by item; scalars by content.  A node that has no partner, or whose partner is of another
kind, is one difference as a whole, and nothing below it is looked at.

When the order of sequences is ignored, the differences found between two sequences are
paired off: going through the left sides in order, each cancels the first right side
still there that it equals.  What is equal is decided by comparing again, on nodes that
lie strictly inside the two sequences.  So every comparison calls for comparisons of
lower trees only, and the height of the left tree bounds how deep they can go.  `within`
counts that depth; everything else is written as one step from any function that
compares lower trees, and nobody outside has to know about the count.
-/
import YamlDelta.Compare.Difference

namespace YamlDelta

/-- How trees are compared. -/
structure CompareOptions where
  /-- Differences of sequences that come from their order alone do not count. -/
  ignoreOrder : Bool
deriving Repr, DecidableEq

/-- Sequences are compared index by index. -/
def CompareOptions.positional : CompareOptions := ⟨false⟩

/-- Sequences are compared up to the order of their items. -/
def CompareOptions.unordered : CompareOptions := ⟨true⟩

namespace Compare

/-! ### The parts of one step -/

/-- Compare what may be missing on either side. -/
def sides (deeper : Node → Node → List Difference) : Option Node → Option Node → List Difference
  | none, none => []
  | none, some r => [.added r]
  | some l, none => [.deleted l]
  | some l, some r => deeper l r

/-- The keys of a mapping, each once, in the order in which they first appear. -/
def keys (es : List (String × Node)) : List String :=
  (es.map (·.1)).eraseDups

/-- Compare by key: first the keys on the left, then those on the right only. -/
def mappings (deeper : Node → Node → List Difference) (ls rs : List (String × Node)) :
    List Difference :=
  (keys ls).flatMap (fun k => sides deeper (Node.lookup k ls) (Node.lookup k rs)) ++
    ((keys rs).filter fun k => (Node.lookup k ls).isNone).flatMap fun k =>
      sides deeper none (Node.lookup k rs)

/-- Compare by index, to the end of the longer sequence. -/
def items (deeper : Node → Node → List Difference) : List Node → List Node → List Difference
  | [], rs => rs.map .added
  | l :: ls, [] => (l :: ls).map .deleted
  | l :: ls, r :: rs => deeper l r ++ items deeper ls rs

/-! ### Pairing off -/

/-- Clear the first node with a property, if there is one. -/
def clearFirst (p : Node → Bool) : List (Option Node) → Option (List (Option Node))
  | [] => none
  | none :: ns => (none :: ·) <$> clearFirst p ns
  | some n :: ns => if p n then some (none :: ns) else (some n :: ·) <$> clearFirst p ns

/-- Go through the left sides, clearing each that has an equal right side together with it. -/
def pairOff (equal : Node → Node → Bool) :
    List (Option Node) → List (Option Node) → List (Option Node) × List (Option Node)
  | [], rs => ([], rs)
  | none :: ls, rs =>
    let (ls, rs) := pairOff equal ls rs
    (none :: ls, rs)
  | some l :: ls, rs =>
    match clearFirst (equal l) rs with
    | some rs =>
      let (ls, rs) := pairOff equal ls rs
      (none :: ls, rs)
    | none =>
      let (ls, rs) := pairOff equal ls rs
      (some l :: ls, rs)

/-- The differences that are left when equal sides have cancelled each other. -/
def cancel (equal : Node → Node → Bool) (ds : List Difference) : List Difference :=
  let (ls, rs) := pairOff equal (ds.map (·.left?)) (ds.map (·.right?))
  (ls.zip rs).filterMap fun (l, r) => Difference.ofSides? l r

/-! ### One step and all steps -/

/-- Compare two nodes, given how to compare lower ones. -/
def step (options : CompareOptions) (deeper : Node → Node → List Difference) (l r : Node) :
    List Difference :=
  match l, r with
  | .mapping ls _, .mapping rs _ => mappings deeper ls rs
  | .sequence ls _, .sequence rs _ =>
    let ds := items deeper ls rs
    if options.ignoreOrder then cancel (fun l r => (deeper l r).isEmpty) ds else ds
  | .scalar v _, .scalar w _ => if v.sameContent w then [] else [.modified l r]
  | _, _ => [.modified l r]

/-- Compare two nodes to a depth. -/
def within (options : CompareOptions) : Nat → Node → Node → List Difference
  | 0, _, _ => []
  | depth + 1, l, r => step options (within options depth) l r

/-- The differences between two nodes. -/
def nodes (options : CompareOptions) (l r : Node) : List Difference :=
  within options l.height l r

/-- The differences between two nodes that may be absent. -/
def optional (options : CompareOptions) (l r : Option Node) : List Difference :=
  sides (nodes options) l r

/-- The differences between two sequences. -/
def sequences (options : CompareOptions) (ls rs : List Node) : List Difference :=
  let ds := items (nodes options) ls rs
  if options.ignoreOrder then cancel (fun l r => (nodes options l r).isEmpty) ds else ds

theorem optional_none_none (options : CompareOptions) : optional options none none = [] := rfl

theorem items_nil_right (deeper : Node → Node → List Difference) (ls : List Node) :
    items deeper ls [] = ls.map .deleted := by
  cases ls <;> rfl

end Compare

end YamlDelta
