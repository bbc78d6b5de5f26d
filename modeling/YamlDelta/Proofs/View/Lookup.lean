/-
No difference is lost when differences are looked up by their paths.

The path of a difference is read off its left node if there is one, and off the right one
otherwise, and a difference of which one side has cancelled changes from the one to the
other.  That cannot make two paths meet.  Whichever side is left, it stands at the location
where the difference was found; these locations are all distinct and none lies beyond
another, with regard to order or without, and a path tells its location.

So among the differences of a document every path leads to the one difference that has it.
-/
import YamlDelta.Proofs.Markup.Placement
import YamlDelta.Proofs.View.Listing

namespace YamlDelta

namespace Compare

variable {options : CompareOptions} {a b : Option Node} {R : Report}

/-- No location of a report lies beyond another. -/
theorem Reports.eq_of_leads_to (h : Reports options a b R) {p q : List Step} {d e : Difference}
    (hd : (p, d) ∈ R) (he : (q, e) ∈ R) (hleads : p <+: q) : p = q :=
  (h.of_mem hd).1.eq_of_leads_to (h.of_mem he).1 hleads

/-- No path is reported twice. -/
theorem Reports.nodup_paths (h : Reports options a b R) (hplaced : PlacedAt "" a b) :
    ((R.map Prod.snd).map Difference.path).Nodup := by
  have hpaths : (R.map Prod.snd).map Difference.path = (R.map Prod.fst).map Path.render := by
    rw [List.map_map, List.map_map]
    exact List.map_congr_left fun x hx => h.path_eq hplaced hx
  rw [hpaths]
  exact h.nodup.map fun _ _ => Path.render_inj

/-- No path that is reported goes on from another. -/
theorem Reports.not_isBelow (h : Reports options a b R) (hplaced : PlacedAt "" a b)
    {p q : List Step} {d e : Difference} (hd : (p, d) ∈ R) (he : (q, e) ∈ R) :
    Path.isBelow d.path e.path = false := by
  rw [h.path_eq hplaced hd, h.path_eq hplaced he, Path.extend_root, Path.extend_root,
    ← Bool.not_eq_true, Path.isBelow_render]
  rintro ⟨hleads, hne⟩
  exact hne (h.eq_of_leads_to hd he hleads)

end Compare

namespace DocumentDiff

open Compare Unified

/-- **The differences of a document stand apart.**  No two have one path, none has a path below
another's, and both sides of one have the same path; so looking for the path of a difference finds
that difference. -/
theorem differences_apart (options : CompareOptions) {a b : Option Node}
    (hplaced : PlacedAt "" a b) :
    ((optional options a b).map Difference.path).Nodup ∧
      (∀ d ∈ optional options a b, ∀ e ∈ optional options a b,
        Path.isBelow d.path e.path = false) ∧
      (∀ d ∈ optional options a b, ∀ l r, d.left? = some l → d.right? = some r →
        l.path = r.path) ∧
      (ofDifferences (optional options a b)).differences.Perm (optional options a b) ∧
      ∀ d ∈ (ofDifferences (optional options a b)).differences,
        differenceAt? (ofDifferences (optional options a b)).differences d.path = some d := by
  obtain ⟨R, hR, h⟩ := exists_reports_optional options a b
  have hsort := Difference.perm_sort (optional options a b)
  have hindexed : Indexed (ofDifferences (optional options a b)).differences [] R :=
    indexed_root h hplaced (hR ▸ hsort)
  have hlocated : ∀ d ∈ optional options a b, ∃ p, (p, d) ∈ R := by
    intro d hd
    rw [← hR] at hd
    obtain ⟨x, hx, rfl⟩ := List.mem_map.mp hd
    exact ⟨x.1, hx⟩
  refine ⟨hR ▸ h.nodup_paths hplaced, ?_, ?_, hsort, ?_⟩
  · intro d hd e he
    obtain ⟨p, hp⟩ := hlocated d hd
    obtain ⟨q, hq⟩ := hlocated e he
    exact h.not_isBelow hplaced hp hq
  · intro d hd l r hl hr
    obtain ⟨p, hp⟩ := hlocated d hd
    rw [h.side_path_eq hplaced hp (.inl hl), h.side_path_eq hplaced hp (.inr hr)]
  · intro d hd
    obtain ⟨p, hp⟩ := hlocated d (hsort.mem_iff.mp hd)
    rw [h.path_eq hplaced hp, Path.extend_root]
    have hfound := (hindexed.at? p d).mpr hp
    rwa [List.nil_append] at hfound

theorem differences_apart_of_reordered :
    ∃ left right l r,
      Stream.ofText "a: 5\na: [x, \x7bk: 1\x7d, y]\n" = .ok left ∧
      Stream.ofText "a: [\x7bk: 2\x7d, x, y, z]\nb: 1\n" = .ok right ∧
      left.document 0 = some l ∧ right.document 0 = some r ∧ PlacedAt "" (some l) (some r) ∧
      (optional .unordered (some l) (some r)).map Difference.path =
        [".a[0]", ".a[1]", ".a[3]", ".b"] ∧
      ((optional .unordered (some l) (some r)).map Difference.path).Nodup ∧
      ∀ d ∈ (ofDifferences (optional .unordered (some l) (some r))).differences,
        differenceAt? (ofDifferences (optional .unordered (some l) (some r))).differences d.path =
          some d := by
  obtain ⟨left, right, l, r, hleft, hright, hl, hr, htest⟩ :=
    Stream.exists_of_firstDocuments "a: 5\na: [x, \x7bk: 1\x7d, y]\n"
      "a: [\x7bk: 2\x7d, x, y, z]\nb: 1\n"
      (fun _ _ l r => (optional .unordered (some l) (some r)).map Difference.path ==
        [".a[0]", ".a[1]", ".a[3]", ".b"])
      (by decide +kernel)
  simp only [beq_iff_eq] at htest
  have hplaced : PlacedAt "" (some l) (some r) :=
    ⟨fun _ h => Option.some.inj h ▸ Stream.placed_of_ofText hleft hl,
      fun _ h => Option.some.inj h ▸ Stream.placed_of_ofText hright hr⟩
  obtain ⟨hnodup, -, -, -, hfound⟩ := differences_apart .unordered hplaced
  exact ⟨left, right, l, r, hleft, hright, hl, hr, hplaced, htest, hnodup, hfound⟩

end DocumentDiff

end YamlDelta
