/-
Trees that are alike.

Two trees are alike when they have the same shape, the same keys in the same order and
scalars of the same value, wherever and however they were written: lines, columns, paths
and texts are ignored, and so is whether a text was a string or a block and which of the
NaNs a NaN is.

How close two scalars have to be is left open within one limit, that they have the same
content: a `Likeness`.  The strictest one here, `Likeness.exact`, compares floats by their
bits; `Likeness.content` also takes both zeros for one.

A tree is alike to itself at any other place, in particular to itself moved to another
path.
-/
import Mathlib.Data.List.Forall2
import Mathlib.Data.Option.Basic
import YamlDelta.Proofs.Node.Content
import YamlDelta.Proofs.Node.Location

namespace YamlDelta

namespace Scalar

/-- The scalars have the same value: texts the same characters, as strings or as blocks, floats the
same bits or no number on either side. -/
inductive Alike : Scalar → Scalar → Prop
  | text {a b : Scalar} {s : String} (ha : a.text? = some s) (hb : b.text? = some s) : Alike a b
  | integer (i : Int64) : Alike (.integer i) (.integer i)
  | float {x y : Binary64} (h : x = y ∨ x.isNaN = true ∧ y.isNaN = true) :
      Alike (.float x) (.float y)
  | bool (b : Bool) : Alike (.bool b) (.bool b)
  | null : Alike .null .null

theorem Alike.refl (v : Scalar) : v.Alike v := by
  cases v with
  | string s => exact .text rfl rfl
  | literal s => exact .text rfl rfl
  | integer i => exact .integer i
  | float x => exact .float (.inl rfl)
  | bool b => exact .bool b
  | null => exact .null

theorem Alike.sameContent {v w : Scalar} (h : v.Alike w) : v.SameContent w := by
  cases h with
  | text ha hb => exact .text ha hb
  | integer i => exact .integer i
  | float h =>
      rcases h with rfl | hnan
      · exact sameContent_iff.mp (sameContent_refl _)
      · exact .float (.inr hnan)
  | bool b => exact .bool b
  | null => exact .null

/-- Scalars are compared by what they hold: others of the same content compare the same. -/
theorem sameContent_congr {v v' w w' : Scalar} (hv : v.SameContent v') (hw : w.SameContent w') :
    v.sameContent w = v'.sameContent w' := by
  rw [← sameContent_iff] at hv hw
  have hv' : v'.sameContent v = true := (v'.sameContent_comm v).trans hv
  have hw' : w'.sameContent w = true := (w'.sameContent_comm w).trans hw
  rw [Bool.eq_iff_iff]
  constructor
  · intro h
    exact sameContent_trans (sameContent_trans hv' h) hw
  · intro h
    exact sameContent_trans (sameContent_trans hv h) hw'

end Scalar

/-- How close scalars have to be to be taken for the same. -/
structure Likeness where
  same : Scalar → Scalar → Prop
  refl : ∀ v, same v v
  /-- Nothing is the same that differs in content. -/
  sameContent : ∀ {v w}, same v w → v.SameContent w

namespace Likeness

/-- The same value, bit by bit except for a NaN. -/
def exact : Likeness where
  same := Scalar.Alike
  refl := Scalar.Alike.refl
  sameContent := Scalar.Alike.sameContent

/-- The same content, so that a zero is a zero of either sign. -/
def content : Likeness where
  same := Scalar.SameContent
  refl v := Scalar.sameContent_iff.mp v.sameContent_refl
  sameContent h := h

end Likeness

namespace Node

/-- The trees have the same shape, keys in the same order, and scalars that are the same. -/
inductive Alike (like : Likeness) : Node → Node → Prop
  | mapping {es fs : List (String × Node)} {p q : Place}
      (keys : es.map Prod.fst = fs.map Prod.fst)
      (values : List.Forall₂ (Alike like) (es.map Prod.snd) (fs.map Prod.snd)) :
      Alike like (.mapping es p) (.mapping fs q)
  | sequence {is js : List Node} {p q : Place} (items : List.Forall₂ (Alike like) is js) :
      Alike like (.sequence is p) (.sequence js q)
  | scalar {v w : Scalar} {p q : Place} (same : like.same v w) :
      Alike like (.scalar v p) (.scalar w q)

variable {like : Likeness} {n m : Node}

theorem Alike.refl (like : Likeness) (n : Node) : n.Alike like n := by
  induction n using Node.induct with
  | mapping es p ih =>
      refine .mapping rfl (List.forall₂_same.mpr fun n hn => ?_)
      obtain ⟨e, he, rfl⟩ := List.mem_map.mp hn
      exact ih e he
  | sequence is p ih => exact .sequence (List.forall₂_same.mpr ih)
  | scalar v p => exact .scalar (like.refl v)

/-! ### The same tree elsewhere -/

/-- At another place a tree stays alike to what it was alike to. -/
theorem Alike.mapPlace (h : n.Alike like m) (f : Place → Place) : n.Alike like (m.mapPlace f) := by
  cases h with
  | mapping keys values => exact .mapping keys values
  | sequence items => exact .sequence items
  | scalar same => exact .scalar same

private theorem keys_entriesUnder (parent : String) (es : List (String × Node)) :
    (entriesUnder parent es).map Prod.fst = es.map Prod.fst := by
  induction es with
  | nil => rfl
  | cons e es ih => rw [entriesUnder, List.map_cons, List.map_cons, ih]

private theorem values_entriesUnder {es : List (String × Node)}
    (h : ∀ e ∈ es, ∀ path, e.2.Alike like (e.2.withPath path)) (parent : String) :
    List.Forall₂ (Alike like) (es.map Prod.snd) ((entriesUnder parent es).map Prod.snd) := by
  induction es with
  | nil => exact .nil
  | cons e es ih =>
      rw [List.forall_mem_cons] at h
      exact .cons (h.1 _) (ih h.2)

private theorem items_itemsUnder {is : List Node}
    (h : ∀ n ∈ is, ∀ path, n.Alike like (n.withPath path)) (parent : String) (i : Nat) :
    List.Forall₂ (Alike like) is (itemsUnder parent i is) := by
  induction is generalizing i with
  | nil => exact .nil
  | cons n is ih =>
      rw [List.forall_mem_cons] at h
      exact .cons (h.1 _) (ih h.2 (i + 1))

/-- A tree is alike to itself moved to another path. -/
theorem alike_withPath (like : Likeness) (n : Node) (path : String) :
    n.Alike like (n.withPath path) := by
  induction n using Node.induct generalizing path with
  | mapping es p ih => exact .mapping (keys_entriesUnder path es).symm (values_entriesUnder ih path)
  | sequence is p ih => exact .sequence (items_itemsUnder ih path 0)
  | scalar v p => exact .scalar (like.refl v)

/-! ### Children of trees that are alike -/

/-- Where one of the trees is a collection, the other is one of the same kind. -/
theorem Alike.kind_eq (h : n.Alike like m)
    (hcoll : n.kind.isCollection = true ∨ m.kind.isCollection = true) : n.kind = m.kind := by
  cases h with
  | mapping keys values => rfl
  | sequence items => rfl
  | @scalar v w p q same =>
      cases v <;> cases w <;> simp [kind, Scalar.kind, Kind.isCollection] at hcoll

/-- The same key stands for values that are alike. -/
theorem lookup_of_forall₂ {es fs : List (String × Node)}
    (hkeys : es.map Prod.fst = fs.map Prod.fst)
    (hvalues : List.Forall₂ (Alike like) (es.map Prod.snd) (fs.map Prod.snd)) (key : String) :
    Option.Rel (Alike like) (lookup key es) (lookup key fs) := by
  induction es generalizing fs with
  | nil =>
      cases fs with
      | nil => exact .none
      | cons f fs => cases hkeys
  | cons e es ih =>
      cases fs with
      | nil => cases hkeys
      | cons f fs =>
          obtain ⟨k, n⟩ := e
          obtain ⟨k', m⟩ := f
          simp only [List.map_cons, List.cons.injEq] at hkeys
          obtain ⟨rfl, hkeys⟩ := hkeys
          cases hvalues with
          | cons hnm hvalues =>
              rw [lookup_cons, lookup_cons]
              refine rel_or (ih hkeys hvalues) ?_
              by_cases hk : k = key
              · rw [if_pos hk, if_pos hk]
                exact .some hnm
              · rw [if_neg hk, if_neg hk]
                exact .none

theorem getElem?_of_forall₂ {is js : List Node} (h : List.Forall₂ (Alike like) is js) (i : Nat) :
    Option.Rel (Alike like) is[i]? js[i]? := by
  induction h generalizing i with
  | nil => exact .none
  | cons hnm hrest ih =>
      cases i with
      | zero => exact .some hnm
      | succ i => exact ih i

/-- The same step leads to children that are alike, or nowhere in either tree. -/
theorem Alike.child? (h : n.Alike like m) (s : Step) :
    Option.Rel (Alike like) (n.child? s) (m.child? s) := by
  cases h with
  | mapping keys values =>
      cases s with
      | key k => exact lookup_of_forall₂ keys values k
      | index i => exact .none
  | sequence items =>
      cases s with
      | key k => exact .none
      | index i => exact getElem?_of_forall₂ items i
  | scalar same =>
      rw [child?_scalar, child?_scalar]
      exact .none

end Node

end YamlDelta
