/-
Nodes: the trees that documents are.

A node is a mapping, a sequence or a scalar, together with its place: the text a
scalar was written with, the line and column where it begins, and its path.  Only the
value says what a document means; the place says where and how it was written, and a
node keeps it when it is reported as part of a difference.

Mappings keep their entries in the order in which they were written, repeated keys
included.  Looking a key up finds its last value, as a later entry overrides an
earlier one.
-/
import YamlDelta.Node.Path
import YamlDelta.Node.Scalar

namespace YamlDelta

/-- Where and how a node was written. -/
structure Place where
  /-- A scalar as it stands in the source; empty for collections. -/
  text : String
  line : Nat
  column : Nat
  path : String
deriving Repr, DecidableEq

/-- A value of a document, with its place. -/
inductive Node where
  | mapping (entries : List (String × Node)) (place : Place)
  | sequence (items : List Node) (place : Place)
  | scalar (value : Scalar) (place : Place)

namespace Node

/-! ### Parts of a node -/

def place : Node → Place
  | mapping _ p | sequence _ p | scalar _ p => p

def kind : Node → Kind
  | mapping _ _ => .mapping
  | sequence _ _ => .sequence
  | scalar v _ => v.kind

def text (n : Node) : String := n.place.text

/-- The line where the node's first token begins, from 1. -/
def line (n : Node) : Nat := n.place.line

/-- The column where the node's first token begins, from 1. -/
def column (n : Node) : Nat := n.place.column

/-- The path from the root of the document; empty for the root. -/
def path (n : Node) : String := n.place.path

/-- The entries of a mapping. -/
def entries? : Node → Option (List (String × Node))
  | mapping es _ => some es
  | _ => none

/-- The items of a sequence. -/
def items? : Node → Option (List Node)
  | sequence is _ => some is
  | _ => none

/-- The value of the last entry with this key. -/
def lookup (key : String) : List (String × Node) → Option Node
  | [] => none
  | (k, n) :: es => lookup key es <|> if k = key then some n else none

/-- The value under a key of a mapping; the last one, if the key is repeated. -/
def get? (n : Node) (key : String) : Option Node :=
  n.entries?.bind (lookup key)

/-- Change the place of a node, not those of its children. -/
def mapPlace (f : Place → Place) : Node → Node
  | mapping es p => mapping es (f p)
  | sequence is p => sequence is (f p)
  | scalar v p => scalar v (f p)

/-- A scalar with its canonical text, at column 1. -/
def ofScalar (v : Scalar) (line : Nat) (path : String) : Node :=
  scalar v ⟨v.canonicalText, line, 1, path⟩

instance : Inhabited Node := ⟨ofScalar .null 1 ""⟩

/-! ### Structural recursion and induction -/

/-- Everything that holds of a node when it holds of its children holds of every node. -/
theorem induct {P : Node → Prop}
    (mapping : ∀ es p, (∀ e ∈ es, P e.2) → P (.mapping es p))
    (sequence : ∀ is p, (∀ n ∈ is, P n) → P (.sequence is p))
    (scalar : ∀ v p, P (.scalar v p)) : ∀ n, P n :=
  fun n => Node.rec (motive_1 := P) (motive_2 := fun es => ∀ e ∈ es, P e.2)
    (motive_3 := fun is => ∀ n ∈ is, P n) (motive_4 := fun e => P e.2)
    (fun es p h => mapping es p h) (fun is p h => sequence is p h) scalar
    (fun _ he => nomatch he) (fun _ _ h hs => List.forall_mem_cons.2 ⟨h, hs⟩)
    (fun _ hn => nomatch hn) (fun _ _ h hs => List.forall_mem_cons.2 ⟨h, hs⟩)
    (fun _ _ h => h) n

mutual
/-- The number of nodes in the tree. -/
def size : Node → Nat
  | mapping es _ => sizeEntries es + 1
  | sequence is _ => sizeItems is + 1
  | scalar _ _ => 1
def sizeEntries : List (String × Node) → Nat
  | [] => 0
  | (_, n) :: es => n.size + sizeEntries es
def sizeItems : List Node → Nat
  | [] => 0
  | n :: is => n.size + sizeItems is
end

mutual
/-- The number of levels of the tree. -/
def height : Node → Nat
  | mapping es _ => heightEntries es + 1
  | sequence is _ => heightItems is + 1
  | scalar _ _ => 1
def heightEntries : List (String × Node) → Nat
  | [] => 0
  | (_, n) :: es => max n.height (heightEntries es)
def heightItems : List Node → Nat
  | [] => 0
  | n :: is => max n.height (heightItems is)
end

theorem size_pos (n : Node) : 0 < n.size := by
  cases n <;> simp [size]

theorem height_pos (n : Node) : 0 < n.height := by
  cases n <;> simp [height]

theorem height_le_heightEntries {e : String × Node} {es : List (String × Node)} (h : e ∈ es) :
    e.2.height ≤ heightEntries es := by
  induction es with
  | nil => simp at h
  | cons x xs ih =>
      rcases List.mem_cons.1 h with rfl | h
      · exact Nat.le_max_left _ _
      · exact Nat.le_trans (ih h) (Nat.le_max_right _ _)

theorem height_le_heightItems {n : Node} {is : List Node} (h : n ∈ is) :
    n.height ≤ heightItems is := by
  induction is with
  | nil => simp at h
  | cons x xs ih =>
      rcases List.mem_cons.1 h with rfl | h
      · exact Nat.le_max_left _ _
      · exact Nat.le_trans (ih h) (Nat.le_max_right _ _)

/-! ### Moving a tree -/

mutual
/-- The tree rooted at `path`, with the paths of all descendants following from it. -/
def withPath (path : String) : Node → Node
  | mapping es p => mapping (entriesUnder path es) { p with path }
  | sequence is p => sequence (itemsUnder path 0 is) { p with path }
  | scalar v p => scalar v { p with path }
def entriesUnder (parent : String) : List (String × Node) → List (String × Node)
  | [] => []
  | (k, n) :: es => (k, n.withPath (Path.key parent k)) :: entriesUnder parent es
def itemsUnder (parent : String) (i : Nat) : List Node → List Node
  | [] => []
  | n :: is => n.withPath (Path.index parent i) :: itemsUnder parent (i + 1) is
end

@[simp] theorem path_withPath (n : Node) (path : String) : (n.withPath path).path = path := by
  cases n <;> rfl

@[simp] theorem kind_withPath (n : Node) (path : String) : (n.withPath path).kind = n.kind := by
  cases n <;> rfl

/-! ### Identity -/

mutual
/-- The two trees agree in values, texts, positions and paths.  A tree holding a NaN is not
identical to anything, itself included. -/
def identical : Node → Node → Bool
  | mapping es p, mapping fs q => decide (p = q) && identicalEntries es fs
  | sequence is p, sequence js q => decide (p = q) && identicalItems is js
  | scalar v p, scalar w q => decide (p = q) && v.identical w
  | _, _ => false
def identicalEntries : List (String × Node) → List (String × Node) → Bool
  | [], [] => true
  | (k, n) :: es, (l, m) :: fs => k == l && n.identical m && identicalEntries es fs
  | _, _ => false
def identicalItems : List Node → List Node → Bool
  | [], [] => true
  | n :: is, m :: js => n.identical m && identicalItems is js
  | _, _ => false
end

end Node

/-! ### Streams -/

/-- The documents of one input, in order.  A document without content is absent. -/
structure Stream where
  documents : List (Option Node)

namespace Stream

/-- The root of a document; absent documents and those beyond the end have none. -/
def document (s : Stream) (i : Nat) : Option Node :=
  s.documents[i]?.join

/-- The number of documents. -/
def length (s : Stream) : Nat :=
  s.documents.length

theorem document_eq_none_of_length_le {s : Stream} {i : Nat} (h : s.length ≤ i) :
    s.document i = none := by
  simp [document, List.getElem?_eq_none h]

end Stream

end YamlDelta
