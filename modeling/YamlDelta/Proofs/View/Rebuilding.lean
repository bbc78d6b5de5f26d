/-
From the tokens of a node back to its data.

The tokens of a node say which events there are and what its scalars hold.  Where they stand
is not among this, and it does not matter: whatever the marks, the builder makes a node of the
same data (`Restores`).  Only for a document that is nothing but a `~` it depends on the text
at the mark whether there is a node at all.
-/
import YamlDelta.Proofs.Markup.Emission
import YamlDelta.Proofs.Markup.Reading
import YamlDelta.Proofs.Node.Agreement
import YamlDelta.Proofs.View.Passage

namespace YamlDelta

open Markup

namespace Emitter

/-! ### Scalars -/

/-- The value of a scalar without a tag. -/
def styledValue (text : String) (style : Style) : Scalar :=
  match style with
  | .literal | .folded => .literal text
  | .singleQuoted | .doubleQuoted => .string text
  | .plain => .ofPlain text

theorem isAbsent_plain {source : Source} {text : String} {style : Style} {mark : Mark}
    (h : Builder.isAbsent source text style mark = true) :
    style = .plain ∧ (text = "" ∨ text = "~") := by
  unfold Builder.isAbsent at h
  simp only [Bool.and_eq_true, beq_iff_eq, Bool.or_eq_true, String.isEmpty_iff] at h
  exact ⟨h.1, h.2.imp_right And.left⟩

/-- What stands for nothing is null either way. -/
theorem scalarValue_eq (source : Source) (text : String) (style : Style) (mark : Mark) :
    (Builder.scalarValue text style false (Builder.isAbsent source text style mark)).1 =
      styledValue text style := by
  cases habsent : Builder.isAbsent source text style mark with
  | true =>
      obtain ⟨rfl, rfl | rfl⟩ := isAbsent_plain habsent <;> decide
  | false => cases style <;> rfl

/-- The token of a scalar says what the scalar holds. -/
theorem LegibleScalar.restored {v : Scalar} {text : String} (h : LegibleScalar v text) :
    ∃ style u, scalarLexeme v text = .scalar style u ∧ styledValue u style = v ∧
      (style = .plain → u = text ∧ u ≠ "") := by
  cases h with
  | plain h =>
      refine ⟨.plain, text, scalarLexeme_plain h, rfl, fun _ => ⟨rfl, ?_⟩⟩
      rintro rfl
      exact h.ne_nil rfl
  | @single s h =>
      exact ⟨.singleQuoted, s, scalarLexeme_quoted (toList_singleQuoted s) s, rfl, nofun⟩
  | @double s h =>
      exact ⟨.doubleQuoted, s, scalarLexeme_quoted (toList_doubleQuoted s) s, rfl, nofun⟩
  | @block s _ h => exact ⟨.literal, s, rfl, rfl, nofun⟩

/-! ### What is restored -/

/-- Wherever it is read, the written node has the data of the node, and it sets no anchor. -/
def Restores (w : Written) (n : Node) : Prop :=
  ∀ source path known, ∃ m, w.node source path known = .ok (m, known) ∧ Node.SameData n m

/-- A node of the same data is read from any tokens with these lexemes. -/
structure Rebuilds (n : Node) (ts : List Token) (w : Written) : Prop where
  yields : Yields ts w
  restores : Restores w n
  present : ∀ source, w.isAbsent source = true → ∃ p, n = .scalar .null p ∧ p.text = "~"

variable {n : Node} {es : List (String × Node)} {is : List Node} {ts : List Token}

theorem exists_rebuilds_scalar {v : Scalar} {p : Place} (h : LegibleScalar v p.text)
    (hts : ts.map Token.lexeme = lexemes (.scalar v p)) : ∃ w, Rebuilds (.scalar v p) ts w := by
  obtain ⟨style, u, hlexeme, rfl, hplain⟩ := h.restored
  rw [lexemes, hlexeme] at hts
  obtain ⟨⟨mark, l⟩, rest, rfl, rfl, hrest⟩ := List.map_eq_cons_iff.mp hts
  obtain rfl := List.map_eq_nil_iff.mp hrest
  refine ⟨_, yields_scalar mark style u, fun source path known => ⟨_, rfl, .scalar ?_⟩, ?_⟩
  · show (styledValue u style).SameContent
      (Builder.scalarValue u style false (Builder.isAbsent source u style mark)).1
    rw [scalarValue_eq]
    exact Scalar.sameContent_iff.mp (Scalar.sameContent_refl _)
  · intro source habsent
    obtain ⟨rfl, hu⟩ :=
      isAbsent_plain (show Builder.isAbsent source u style mark = true from habsent)
    obtain ⟨htext, hne⟩ := hplain rfl
    obtain rfl : u = "~" := hu.resolve_left hne
    refine ⟨p, ?_, htext.symm⟩
    rw [show styledValue "~" .plain = .null by decide]

/-- Items are rebuilt from their tokens. -/
theorem exists_items (h : ∀ n ∈ is, ∀ ts : List Token, ts.map Token.lexeme = lexemes n →
      ∃ w, Rebuilds n ts w) (hts : ts.map Token.lexeme = itemsLexemes is) :
    ∃ ws, YieldsItems ts ws ∧ ∀ source path i known, ∃ js,
      Written.items source path i known ws = .ok (js, known) ∧
        ∀ i : Nat, Option.Rel Node.SameData is[i]? js[i]? := by
  induction is generalizing ts with
  | nil =>
      obtain rfl := List.map_eq_nil_iff.mp hts
      exact ⟨[], .nil, fun _ _ _ known => ⟨[], rfl, fun i => .none⟩⟩
  | cons n is ih =>
      rw [List.forall_mem_cons] at h
      obtain ⟨⟨mark, l⟩, rest, rfl, rfl, hrest⟩ := List.map_eq_cons_iff.mp hts
      obtain ⟨ts, us, rfl, hts, hus⟩ := List.map_eq_append_iff.mp hrest
      obtain ⟨w, hyields, hrestores, -⟩ := h.1 ts hts
      obtain ⟨ws, hitems, hrest⟩ := ih h.2 hus
      refine ⟨w :: ws, .cons hyields hitems, fun source path i known => ?_⟩
      obtain ⟨m, hm, hsame⟩ := hrestores source (Path.index path i) known
      obtain ⟨js, hjs, hsames⟩ := hrest source path (i + 1) known
      refine ⟨m :: js, ?_, fun i => ?_⟩
      · rw [Written.items, hm]
        show (Written.items source path (i + 1) known ws).bind _ = _
        rw [hjs]
        rfl
      · cases i with
        | zero => exact .some hsame
        | succ i => exact hsames i

/-- Entries are rebuilt from their tokens. -/
theorem exists_entries (h : ∀ e ∈ es, ∀ ts : List Token, ts.map Token.lexeme = lexemes e.2 →
      ∃ w, Rebuilds e.2 ts w) (hts : ts.map Token.lexeme = entriesLexemes es) :
    ∃ ps, YieldsEntries ts ps ∧ ∀ source path known, ∃ fs,
      Written.entries source path known ps = .ok (fs, known) ∧
        ∀ k, Option.Rel Node.SameData (Node.lookup k es) (Node.lookup k fs) := by
  induction es generalizing ts with
  | nil =>
      obtain rfl := List.map_eq_nil_iff.mp hts
      exact ⟨[], .nil, fun _ _ known => ⟨[], rfl, fun k => .none⟩⟩
  | cons e es ih =>
      obtain ⟨k, n⟩ := e
      rw [List.forall_mem_cons] at h
      obtain ⟨⟨m₁, _⟩, _, rfl, rfl, hts₁⟩ := List.map_eq_cons_iff.mp hts
      obtain ⟨⟨m₂, _⟩, _, rfl, rfl, hts₂⟩ := List.map_eq_cons_iff.mp hts₁
      obtain ⟨⟨m₃, _⟩, _, rfl, rfl, hts₃⟩ := List.map_eq_cons_iff.mp hts₂
      obtain ⟨ts, us, rfl, hts, hus⟩ := List.map_eq_append_iff.mp
        (show _ = lexemes n ++ entriesLexemes es from hts₃)
      obtain ⟨w, hyields, hrestores, -⟩ := h.1 ts hts
      obtain ⟨ps, hentries, hrest⟩ := ih h.2 hus
      refine ⟨_, .cons hyields hentries, fun source path known => ?_⟩
      obtain ⟨m, hm, hsame⟩ := hrestores source (Path.key path k) known
      obtain ⟨fs, hfs, hsames⟩ := hrest source path known
      refine ⟨(k, m) :: fs, ?_, fun l => ?_⟩
      · rw [Written.entries]
        show ((w.node source (Path.key path k) known).bind _) = _
        rw [hm]
        show (Written.entries source path known ps).bind _ = _
        rw [hfs]
        rfl
      · -- a later entry with the same key overrides this one on both sides
        rw [Node.lookup_cons, Node.lookup_cons]
        refine Node.rel_or (hsames l) ?_
        split
        · exact .some hsame
        · exact .none

theorem exists_enclosed {a b : Lexeme} {l : List Lexeme}
    (hts : ts.map Token.lexeme = a :: (l ++ [b])) :
    ∃ m us m', ts = ⟨m, a⟩ :: (us ++ [⟨m', b⟩]) ∧ us.map Token.lexeme = l := by
  obtain ⟨⟨m, _⟩, _, rfl, rfl, hts₁⟩ := List.map_eq_cons_iff.mp hts
  obtain ⟨us, vs, rfl, hus, hvs⟩ := List.map_eq_append_iff.mp hts₁
  obtain ⟨⟨m', _⟩, _, rfl, rfl, hnil⟩ := List.map_eq_cons_iff.mp hvs
  obtain rfl := List.map_eq_nil_iff.mp hnil
  exact ⟨m, us, m', rfl, hus⟩

/-- **The tokens of a node give back its data.** -/
theorem exists_rebuilds (h : Legible n) :
    ∀ ts : List Token, ts.map Token.lexeme = lexemes n → ∃ w, Rebuilds n ts w := by
  induction n using Node.induct with
  | mapping es p ih =>
      intro ts hts
      by_cases hes : es = []
      · subst hes
        obtain ⟨m, us, m', rfl, hus⟩ := exists_enclosed (l := []) hts
        obtain rfl := List.map_eq_nil_iff.mp hus
        refine ⟨_, yields_emptyMapping m m', fun source path known => ⟨_, rfl, ?_⟩, nofun⟩
        exact Node.agree_mapping_iff.mpr fun k => .none
      · cases h with
        | mapping hkeys hvalues =>
            rw [lexemes_entries hes] at hts
            obtain ⟨m, us, m', rfl, hus⟩ := exists_enclosed hts
            obtain ⟨ps, hyields, hrestores⟩ :=
              exists_entries (fun e he => ih e he (hvalues e he)) hus
            refine ⟨_, yields_mapping hyields m m', fun source path known => ?_, nofun⟩
            obtain ⟨fs, hfs, hsames⟩ := hrestores source path known
            exact ⟨_, Written.node_mapping hfs, Node.agree_mapping_iff.mpr hsames⟩
  | sequence is p ih =>
      intro ts hts
      by_cases his : is = []
      · subst his
        obtain ⟨m, us, m', rfl, hus⟩ := exists_enclosed (l := []) hts
        obtain rfl := List.map_eq_nil_iff.mp hus
        refine ⟨_, yields_emptySequence m m', fun source path known => ⟨_, rfl, ?_⟩, nofun⟩
        exact Node.sameData_sequence_iff.mpr fun i => .none
      · cases h with
        | sequence hitems =>
            rw [lexemes_items his] at hts
            obtain ⟨m, us, m', rfl, hus⟩ := exists_enclosed hts
            obtain ⟨ws, hyields, hrestores⟩ := exists_items (fun n hn => ih n hn (hitems n hn)) hus
            refine ⟨_, yields_sequence hyields m m', fun source path known => ?_, nofun⟩
            obtain ⟨js, hjs, hsames⟩ := hrestores source path 0 known
            exact ⟨_, Written.node_sequence hjs, Node.sameData_sequence_iff.mpr hsames⟩
  | scalar v p =>
      intro ts hts
      cases h with
      | scalar h => exact exists_rebuilds_scalar h hts

end Emitter

end YamlDelta
