/-
Equal content, rule by rule.

`sameContent` decides whether two scalars hold the same.  Here the rules it decides are
written down one by one, so that what a theorem says about equal content can be read off
without the function: texts agree as texts whether they were strings or blocks, numbers
agree as numbers within one kind, and a NaN agrees with a NaN.
-/
import YamlDelta.Node.Scalar

namespace YamlDelta.Scalar

/-- The two scalars hold the same content. -/
inductive SameContent : Scalar → Scalar → Prop
  | text {a b : Scalar} {s : String} (ha : a.text? = some s) (hb : b.text? = some s) :
      SameContent a b
  | integer (i : Int64) : SameContent (.integer i) (.integer i)
  | float {x y : Binary64} (h : x.equal y = true ∨ x.isNaN = true ∧ y.isNaN = true) :
      SameContent (.float x) (.float y)
  | bool (b : Bool) : SameContent (.bool b) (.bool b)
  | null : SameContent .null .null

theorem sameContent_iff {a b : Scalar} : a.sameContent b = true ↔ SameContent a b := by
  constructor
  · intro h
    cases a with
    | string s => exact .text rfl (of_decide_eq_true h)
    | literal s => exact .text rfl (of_decide_eq_true h)
    | integer i => exact of_decide_eq_true h ▸ .integer i
    | bool b => exact of_decide_eq_true h ▸ .bool b
    | null => exact of_decide_eq_true h ▸ .null
    | float x =>
        cases b with
        | float y =>
            refine .float ?_
            simpa [sameContent, float?, Binary64.same] using h
        | _ => simp [sameContent, float?] at h
  · intro h
    cases h with
    | text ha hb => cases a <;> simp_all [text?, sameContent]
    | integer i => simp [sameContent]
    | float h => simpa [sameContent, float?, Binary64.same] using h
    | bool b => simp [sameContent]
    | null => simp [sameContent]

/-- Nothing is lost by going through a third scalar. -/
theorem sameContent_trans {a b c : Scalar} (hab : a.sameContent b = true)
    (hbc : b.sameContent c = true) : a.sameContent c = true := by
  rw [sameContent_iff] at hab hbc ⊢
  cases hab with
  | text ha hb =>
      cases hbc with
      | text hb' hc => exact .text ha (hc.trans (hb'.symm.trans hb))
      | _ => simp [text?] at hb
  | integer i => exact hbc
  | float h =>
      cases hbc with
      | text hb hc => simp [text?] at hb
      | float h' =>
          refine .float ?_
          have htrans := Binary64.same_trans (x := _) (y := _) (z := _)
            (by simpa [Binary64.same] using h) (by simpa [Binary64.same] using h')
          simpa [Binary64.same] using htrans
  | bool b => exact hbc
  | null => exact hbc

end YamlDelta.Scalar
