/-
What the data shows of a difference.

A difference is written as an object, with a member for each side that it has.  Since the
text of a JSON value tells the value, what two sides are written as can be compared as
values: two scalars of different content, or of kinds that are not compared by content,
have different values, and so has a collection that is compared with something else.

There is one exception, which JSON does not allow to avoid.  It has no NaN and no
infinities, so these are written `null`, like null itself, and a change from one of them
to another shows the same on both sides.
-/
import YamlDelta.Proofs.Compare.Report
import YamlDelta.Proofs.Json.Recovery
import YamlDelta.Proofs.Markup.Placement
import YamlDelta.View.Summary

namespace YamlDelta

open Compare (Part)

/-! ### Values of nodes -/

namespace Node

/-- The node is written `null`: it is null, or a float that JSON has no number for. -/
def WrittenNull : Node → Prop
  | .scalar .null _ => True
  | .scalar (.float x) _ => x.isNaN = true ∨ x.isInfinite = true
  | _ => False

theorem kind_of_writtenNull {n : Node} (h : n.WrittenNull) : n.kind = .null ∨ n.kind = .float := by
  cases n with
  | mapping es p => cases h
  | sequence is p => cases h
  | scalar v p =>
      cases v with
      | null => exact .inl rfl
      | float x => exact .inr rfl
      | _ => simp [WrittenNull] at h

theorem toJson_scalar (v : Scalar) (p : Place) : (scalar v p).toJson = v.toJson := by
  rw [toJson]

theorem shown_eq_null_iff {n : Node} : n.toJson.shown = .null ↔ n.WrittenNull := by
  cases n with
  | mapping es p => simp [toJson, Json.shown, WrittenNull]
  | sequence is p => simp [toJson, Json.shown, WrittenNull]
  | scalar v p =>
      rw [toJson_scalar]
      cases v with
      | float x =>
          rw [Scalar.toJson, Json.shown, WrittenNull, ← Bool.or_eq_true]
          split <;> simp_all
      | _ => simp [Scalar.toJson, Json.shown, WrittenNull]

/-- Of a scalar that is not written `null` a reader gets back the value. -/
theorem shown_scalar {v : Scalar} {p : Place} (h : ¬(scalar v p).WrittenNull) :
    (scalar v p).toJson.shown = v.toJson := by
  rw [toJson_scalar]
  cases v with
  | float x => rw [Scalar.toJson, Json.shown, if_neg (by simpa [WrittenNull] using h)]
  | _ => rw [Scalar.toJson, Json.shown]

end Node

/-- Scalars of one value that are no NaN hold the same. -/
theorem Scalar.sameContent_of_toJson_eq {v w : Scalar} (h : v.toJson = w.toJson)
    (hnan : ∀ x, v = .float x → x.isNaN = false) : v.sameContent w = true := by
  rw [sameContent_iff]
  cases v with
  | string s =>
      cases w <;> simp only [toJson, reduceCtorEq, Json.string.injEq] at h
      all_goals exact h ▸ .text rfl rfl
  | literal s =>
      cases w <;> simp only [toJson, reduceCtorEq, Json.string.injEq] at h
      all_goals exact h ▸ .text rfl rfl
  | integer i =>
      cases w <;> simp only [toJson, reduceCtorEq, Json.integer.injEq] at h
      rename_i j
      exact Int64.toInt_inj.mp h ▸ .integer i
  | float x =>
      cases w <;> simp only [toJson, reduceCtorEq, Json.number.injEq] at h
      subst h
      exact .float (.inl (by simp [Binary64.equal, hnan x rfl]))
  | bool b =>
      cases w <;> simp only [toJson, reduceCtorEq, Json.bool.injEq] at h
      exact h ▸ .bool b
  | null =>
      cases w <;> simp only [toJson, reduceCtorEq] at h
      exact .null

namespace Compare

variable {l r : Node}

/-- Nodes that are written alike are both written `null`, or they are compared by content and
there is nothing to report of them as wholes. -/
theorem cases_of_shown_eq (h : l.toJson.shown = r.toJson.shown) :
    (l.WrittenNull ∧ r.WrittenNull) ∨ SameCollection l r ∨ sameScalar l r = true := by
  by_cases hl : l.WrittenNull
  · exact .inl ⟨hl, Node.shown_eq_null_iff.mp (h ▸ Node.shown_eq_null_iff.mpr hl)⟩
  · have hr : ¬r.WrittenNull := fun hr =>
      hl (Node.shown_eq_null_iff.mp (h ▸ Node.shown_eq_null_iff.mpr hr))
    cases l with
    | mapping ls p =>
        cases r with
        | mapping rs q => exact .inr (.inl ⟨rfl, rfl⟩)
        | sequence rs q => simp [Node.toJson, Json.shown] at h
        | scalar w q =>
            rw [Node.shown_scalar hr] at h
            cases w <;> simp [Node.toJson, Json.shown, Scalar.toJson] at h
    | sequence ls p =>
        cases r with
        | mapping rs q => simp [Node.toJson, Json.shown] at h
        | sequence rs q => exact .inr (.inl ⟨rfl, rfl⟩)
        | scalar w q =>
            rw [Node.shown_scalar hr] at h
            cases w <;> simp [Node.toJson, Json.shown, Scalar.toJson] at h
    | scalar v p =>
        rw [Node.shown_scalar hl] at h
        cases r with
        | mapping rs q => cases v <;> simp [Node.toJson, Json.shown, Scalar.toJson] at h
        | sequence rs q => cases v <;> simp [Node.toJson, Json.shown, Scalar.toJson] at h
        | scalar w q =>
            rw [Node.shown_scalar hr] at h
            refine .inr (.inr (Scalar.sameContent_of_toJson_eq h ?_))
            rintro x rfl
            simpa using fun hnan => hl (.inl hnan)

/-- **Two nodes that part are written alike only as `null`.** -/
theorem Part.prettyAt_eq_iff (h : Part (some l) (some r)) (level : Nat) :
    l.toJson.prettyAt level = r.toJson.prettyAt level ↔ l.WrittenNull ∧ r.WrittenNull := by
  rw [Json.prettyAt_eq_iff]
  constructor
  · intro hshown
    rcases cases_of_shown_eq hshown with hnull | hcoll | hscalar
    · exact hnull
    · exact absurd (GoOn.intro hcoll) h.not_goOn
    · exact absurd h (not_part_of_sameScalar hscalar)
  · rintro ⟨hl, hr⟩
    rw [Node.shown_eq_null_iff.mpr hl, Node.shown_eq_null_iff.mpr hr]

end Compare

/-! ### Differences -/

/-- The member of an object that has a name. -/
def Json.member? (name : String) : Json → Option Json
  | object ms => ms.lookup name
  | _ => none

/-- What a reader of the data gets back of a difference. -/
structure Difference.Shown where
  kind : ChangeKind
  path : String
  line : Nat
  left? : Option Json
  right? : Option Json

namespace Difference

/-- The difference with its sides as a reader gets them back. -/
def shown (d : Difference) : Shown :=
  ⟨d.kind, d.path, d.line, d.left?.map (·.toJson.shown), d.right?.map (·.toJson.shown)⟩

namespace Shown

/-- A side as a member. -/
def member (name : String) (side : Option Json) : List (String × Json) :=
  side.toList.map (name, ·)

/-- The object that is got back. -/
def toJson (s : Shown) : Json :=
  .object ([("kind", .string s.kind.name), ("path", .string s.path), ("line", .integer s.line)] ++
    member "left" s.left? ++ member "right" s.right?)

/-- All that is got back can be told from the object. -/
theorem toJson_inj {s t : Shown} (h : s.toJson = t.toJson) : s = t := by
  obtain ⟨kind, path, line, left, right⟩ := s
  obtain ⟨kind', path', line', left', right'⟩ := t
  have hname : kind.name = kind'.name → kind = kind' := by
    cases kind <;> cases kind' <;> decide
  simp only [toJson, member, Json.object.injEq, List.cons_append, List.nil_append, List.cons.injEq,
    Prod.mk.injEq, true_and, Json.string.injEq, Json.integer.injEq, Int.natCast_inj] at h
  obtain ⟨hkind, hpath, hline, hsides⟩ := h
  obtain rfl := hname hkind
  cases left <;> cases left' <;> cases right <;> cases right' <;> simp_all

end Shown

theorem shown_sideMember (name : String) (side : Option Node) :
    (sideMember name side).map Json.shownMember =
      Shown.member name (side.map (·.toJson.shown)) := by
  cases side <;> rfl

theorem shown_toJson (d : Difference) : d.toJson.shown = d.shown.toJson := by
  rw [toJson, Json.shown, Json.shownMembers_eq, List.map_append, List.map_append,
    shown_sideMember, shown_sideMember]
  simp only [List.map_cons, List.map_nil, Json.shownMember, Json.shown]
  rfl

/-- A side that is there is a member, and no other side is. -/
theorem member?_side (d : Difference) :
    d.toJson.member? "left" = d.left?.map Node.toJson ∧
      d.toJson.member? "right" = d.right?.map Node.toJson := by
  cases d <;> exact ⟨rfl, rfl⟩

end Difference

namespace StreamDiff

theorem shown_toJson (d : StreamDiff) :
    d.toJson.shown = .array ((d.documents.map fun doc => doc.differences.map Difference.shown).map
      fun ds => .array (ds.map Difference.Shown.toJson)) := by
  rw [toJson, Json.shown, Json.shownItems_eq, List.map_map, List.map_map]
  refine congrArg Json.array (List.map_congr_left fun doc _ => ?_)
  simp only [Function.comp_apply, Json.shown, Json.shownItems_eq, List.map_map]
  exact congrArg Json.array (List.map_congr_left fun d _ => d.shown_toJson)

/-- **The data tells all differences**, their kinds, paths, lines and sides, up to floats that are
no numbers of JSON. -/
theorem json_eq_iff {d d' : StreamDiff} :
    Summary.json d = Summary.json d' ↔
      d.documents.map (fun doc => doc.differences.map Difference.shown) =
        d'.documents.map fun doc => doc.differences.map Difference.shown := by
  have hinj : Function.Injective fun ds : List Difference.Shown =>
      Json.array (ds.map Difference.Shown.toJson) := fun ds es h =>
    List.map_injective_iff.mpr (fun _ _ => Difference.Shown.toJson_inj) (Json.array.inj h)
  rw [Summary.json, Summary.json, Json.pretty, Json.pretty, Json.prettyAt_eq_iff, shown_toJson,
    shown_toJson, Json.array.injEq, (List.map_injective_iff.mpr hinj).eq_iff]

/-- **The data shows every modification, except between what JSON can only write as `null`.**  The
values of the two sides of a modification are written alike exactly if each side is null, a NaN
or an infinity; a member is missing exactly if its side is; and the data tells all differences
that are in it, with the values that can be read back. -/
theorem data_shows_modifications (options : CompareOptions) (left right : Stream) :
    (∀ doc ∈ (ofStreams options left right).documents, ∀ d ∈ doc.differences,
      (d.toJson.member? "left" = d.left?.map Node.toJson ∧
        d.toJson.member? "right" = d.right?.map Node.toJson) ∧
      ∀ l r, d = .modified l r → ∀ level,
        (l.toJson.prettyAt level = r.toJson.prettyAt level ↔ l.WrittenNull ∧ r.WrittenNull)) ∧
    ∀ d, Summary.json d = Summary.json (ofStreams options left right) ↔
      d.documents.map (fun doc => doc.differences.map Difference.shown) =
        (ofStreams options left right).documents.map fun doc =>
          doc.differences.map Difference.shown := by
  refine ⟨fun doc hdoc d hd => ⟨d.member?_side, ?_⟩, fun d => json_eq_iff⟩
  rintro l r rfl level
  obtain ⟨i, R, p, hreports, hmem⟩ := Compare.exists_report_of_mem hdoc hd
  obtain ⟨hpoint, hsides⟩ := hreports.of_mem hmem
  have hpart : Part (some l) (some r) := by
    have hend := hpoint.2
    rw [← hsides.left.resolve_left (by simp [Difference.left?]),
      ← hsides.right.resolve_left (by simp [Difference.right?])] at hend
    exact hend
  exact hpart.prettyAt_eq_iff level

/-- A whole number that became a fraction is shown as such. -/
theorem data_shows_modifications_of_fraction :
    ∃ left right, Stream.ofText "a: 1\n" = .ok left ∧ Stream.ofText "a: 1.0\n" = .ok right ∧
      ∃ doc ∈ (ofStreams .positional left right).documents, ∃ l r,
        .modified l r ∈ doc.differences ∧
          ∀ level, l.toJson.prettyAt level ≠ r.toJson.prettyAt level := by
  obtain ⟨left, right, -, -, hleft, hright, -, -, htest⟩ :=
    Stream.exists_of_firstDocuments "a: 1\n" "a: 1.0\n"
      (fun left right _ _ => (ofStreams .positional left right).documents.any fun doc =>
        doc.differences.any fun d => d.left?.map Node.kind == some .integer &&
          d.right?.map Node.kind == some .float) (by decide +kernel)
  obtain ⟨doc, hdoc, hany⟩ := List.any_eq_true.mp htest
  obtain ⟨d, hd, hkinds⟩ := List.any_eq_true.mp hany
  simp only [Bool.and_eq_true, beq_iff_eq, Option.map_eq_some_iff] at hkinds
  obtain ⟨⟨l, hl, hinteger⟩, r, hr, -⟩ := hkinds
  have hmodified : d = .modified l r :=
    Option.some.inj (d.ofSides?_left?_right?.symm.trans (by rw [hl, hr]; rfl))
  refine ⟨left, right, hleft, hright, doc, hdoc, l, r, hmodified ▸ hd, fun level halike => ?_⟩
  obtain ⟨-, hiff⟩ := (data_shows_modifications .positional left right).1 doc hdoc d hd
  have hnull := ((hiff l r hmodified level).mp halike).1
  have hkind := Node.kind_of_writtenNull hnull
  rw [hinteger] at hkind
  rcases hkind with h | h <;> cases h

/-- Two infinities differ, and both are written `null`. -/
theorem infinities_alike :
    ∃ left right, Stream.ofText "a: .inf\n" = .ok left ∧ Stream.ofText "a: -.inf\n" = .ok right ∧
      ∃ doc ∈ (ofStreams .positional left right).documents, ∃ d ∈ doc.differences,
        d.kind = .modified ∧ (d.toJson.member? "left").map (·.prettyAt 3) = some "null" ∧
          (d.toJson.member? "right").map (·.prettyAt 3) = some "null" := by
  obtain ⟨left, right, -, -, hleft, hright, -, -, htest⟩ :=
    Stream.exists_of_firstDocuments "a: .inf\n" "a: -.inf\n"
      (fun left right _ _ => (ofStreams .positional left right).documents.any fun doc =>
        doc.differences.any fun d => d.kind == .modified &&
          (d.toJson.member? "left").map (·.prettyAt 3) == some "null" &&
            (d.toJson.member? "right").map (·.prettyAt 3) == some "null") (by decide +kernel)
  obtain ⟨doc, hdoc, hany⟩ := List.any_eq_true.mp htest
  obtain ⟨d, hd, hshown⟩ := List.any_eq_true.mp hany
  simp only [Bool.and_eq_true, beq_iff_eq] at hshown
  exact ⟨left, right, hleft, hright, doc, hdoc, d, hd, hshown.1.1, hshown.1.2, hshown.2⟩

end StreamDiff

end YamlDelta
