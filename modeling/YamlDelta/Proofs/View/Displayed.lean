/-
Quoted scalars on display.

A scalar that was read in quotes is shown in quotes of the same sort.  Between them a single
quote is doubled and a double quote is escaped, so the first one that is neither closes the text
and is its last character, whatever comes after it (`enclosed_singleQuoted`,
`enclosed_doubleQuoted`).  And what is shown tells the quotes and the string (`displayed_inj`), so
that a modification between such scalars never shows the same text twice.
-/
import YamlDelta.Proofs.Compare.Recursion
import YamlDelta.Proofs.Markup.Quotes
import YamlDelta.Proofs.Markup.Reading
import YamlDelta.Proofs.Text.Quoted
import YamlDelta.View.Emitter

namespace YamlDelta

namespace Text

open Markup (quoteMark)

/-! ### The quote that closes a text -/

/-- The offset of the first double quote that no backslash escapes. -/
def unescapedQuote? : List Char → Option Nat
  | [] => none
  | '"' :: _ => some 0
  | '\\' :: _ :: cs => (unescapedQuote? cs).map (· + 2)
  | _ :: cs => (unescapedQuote? cs).map (· + 1)

/-- The offset of the first single quote that is not doubled. -/
def undoubledQuote? : List Char → Option Nat
  | [] => none
  | '\'' :: '\'' :: cs => (undoubledQuote? cs).map (· + 2)
  | '\'' :: _ => some 0
  | _ :: cs => (undoubledQuote? cs).map (· + 1)

/-- The offset of the quote that closes a text, counted from behind the one that opens it. -/
def closingQuote? (single : Bool) (cs : List Char) : Option Nat :=
  if single then undoubledQuote? cs else unescapedQuote? cs

/-- A text between quotes, of which the first one that can close it is the last character, whatever
follows.  Only single quotes may not be followed by another one, which would make the last one a
quote inside. -/
def Enclosed (single : Bool) (text : List Char) : Prop :=
  ∃ body, text = quoteMark single :: (body ++ [quoteMark single]) ∧
    ∀ rest : List Char, (single = true → rest.head? ≠ some '\'') →
      closingQuote? single (body ++ quoteMark single :: rest) = some body.length

/-- What looks for a quote passes over a row of pieces if it passes over every piece. -/
theorem find_pieces {find : List Char → Option Nat} {piece : Char → List Char}
    (hpiece : ∀ c x, find (piece c ++ x) = (find x).map (· + (piece c).length))
    (cs x : List Char) :
    find (cs.flatMap piece ++ x) = (find x).map (· + (cs.flatMap piece).length) := by
  induction cs with
  | nil => simp
  | cons c cs ih =>
      rw [List.flatMap_cons, List.append_assoc, hpiece, ih, Option.map_map, List.length_append]
      refine congrArg (Option.map · _) (funext fun n => ?_)
      show n + (cs.flatMap piece).length + (piece c).length = _
      omega

theorem unescapedQuote?_cons {c : Char} (hquote : c ≠ '"') (hslash : c ≠ '\\') (x : List Char) :
    unescapedQuote? (c :: x) = (unescapedQuote? x).map (· + 1) :=
  unescapedQuote?.eq_4 c x hquote fun _ _ h => absurd h hslash

theorem unescapedQuote?_piece (c : Char) (x : List Char) :
    unescapedQuote? (doublePiece c ++ x) =
      (unescapedQuote? x).map (· + (doublePiece c).length) := by
  rcases escaping_doublePiece.cases c with ⟨h, hquote, hslash⟩ | ⟨e, -, h⟩ | ⟨h, -⟩
  · rw [h]
    exact unescapedQuote?_cons hquote hslash x
  · rw [h]
    rfl
  · exact h.elim

theorem undoubledQuote?_cons {c : Char} (hquote : c ≠ '\'') (x : List Char) :
    undoubledQuote? (c :: x) = (undoubledQuote? x).map (· + 1) :=
  undoubledQuote?.eq_4 c x (fun _ h => absurd h hquote) hquote

theorem undoubledQuote?_quote {rest : List Char} (h : rest.head? ≠ some '\'') :
    undoubledQuote? ('\'' :: rest) = some 0 := by
  cases rest with
  | nil => rfl
  | cons c rest => exact undoubledQuote?.eq_3 _ fun cs hcs => h (by rw [hcs]; rfl)

theorem undoubledQuote?_piece (c : Char) (x : List Char) :
    undoubledQuote? (singlePiece c ++ x) =
      (undoubledQuote? x).map (· + (singlePiece c).length) := by
  unfold singlePiece
  split
  · rfl
  · rename_i hquote
    exact undoubledQuote?_cons hquote x

theorem enclosed_singleQuoted (s : String) : Enclosed true (singleQuoted s).toList := by
  refine ⟨_, String.toList_ofList, fun rest hrest => ?_⟩
  show undoubledQuote? (_ ++ '\'' :: rest) = _
  rw [find_pieces undoubledQuote?_piece, undoubledQuote?_quote (hrest rfl)]
  simp

theorem enclosed_doubleQuoted (s : String) : Enclosed false (doubleQuoted s).toList := by
  refine ⟨_, String.toList_ofList, fun rest _ => ?_⟩
  show unescapedQuote? (_ ++ '"' :: rest) = _
  rw [find_pieces unescapedQuote?_piece]
  simp [unescapedQuote?]

/-- A text in double quotes has none of the characters that end a line or move along it. -/
theorem notMem_doubleQuoted {x : Char} (hx : x ∈ ['\n', '\r', '\t']) (s : String) :
    x ∉ (doubleQuoted s).toList := by
  have hescape : x ∈ lineEscapes.map Prod.fst ∧ x ≠ '"' ∧ x ≠ '\\' ∧
      x ∉ lineEscapes.map Prod.snd := by
    simp only [List.mem_cons, List.not_mem_nil, or_false] at hx
    rcases hx with rfl | rfl | rfl
    all_goals decide
  obtain ⟨hfirst, hquote, hslash, hletter⟩ := hescape
  rw [doubleQuoted, String.toList_ofList, List.mem_append, List.mem_cons, List.mem_flatMap,
    List.mem_singleton]
  rintro ((h | ⟨c, -, h⟩) | h)
  · exact hquote h
  · rcases doublePiece_cases c with ⟨hc, hnone⟩ | ⟨e, he, hc⟩
    · rw [hc, List.mem_singleton] at h
      exact hnone (h ▸ hfirst)
    · rw [hc, List.mem_cons, List.mem_singleton] at h
      rcases h with h | h
      · exact hslash h
      · exact hletter (h ▸ List.mem_map_of_mem he)
  · exact hquote h

end Text

/-- What is painted in one colour is the same only if it was. -/
theorem Palette.paint_inj {p : Palette} {c : Color} {s t : String} :
    p.paint c s = p.paint c t ↔ s = t := by
  refine ⟨fun h => ?_, fun h => h ▸ rfl⟩
  obtain ⟨enabled⟩ := p
  cases enabled with
  | false => exact h
  | true =>
      by_cases hs : s = ""
      · have ht := h ▸ paint_eq_empty.mpr hs
        rw [hs, paint_eq_empty.mp ht]
      · have ht : t ≠ "" := fun ht => hs (paint_eq_empty.mp (h.trans (paint_eq_empty.mpr ht)))
        have hpaint : ∀ u, u ≠ "" → paint ⟨true⟩ c u = "\x1b[" ++ c.code ++ "m" ++ u ++ "\x1b[0m" :=
          fun u hu => by simp [paint, hu]
        rw [hpaint s hs, hpaint t ht] at h
        simpa using h

namespace Markup

open Written Text

variable {source source' : Source} {mark mark' : Mark} {path path' : String}

/-! ### Scalars in quotes -/

/-- The style of a scalar in quotes. -/
def quotedStyle (single : Bool) : Style :=
  if single then .singleQuoted else .doubleQuoted

/-- A string as it is shown in quotes. -/
def displayed (single : Bool) (s : String) : String :=
  if single then singleQuoted s else doubleQuoted s

theorem scalarNode_quoted (source : Source) (s : String) (single isText : Bool) (mark : Mark)
    (path : String) :
    scalarNode source s (quotedStyle single) isText mark path =
      .scalar (.string s) (placeAt source mark (displayed single s) path) := by
  cases single <;> rfl

theorem displayed_inj {single single' : Bool} {v w : String} :
    displayed single v = displayed single' w ↔ single = single' ∧ v = w := by
  constructor
  · intro h
    cases single <;> cases single'
    case false.false =>
      have hlist : (doubleQuoted v).toList ++ [] = (doubleQuoted w).toList ++ [] := by
        rw [show doubleQuoted v = doubleQuoted w from h]
      exact ⟨rfl, (doubleQuoted_append_inj hlist).1⟩
    case true.true =>
      have hlist : (singleQuoted v).toList ++ [] = (singleQuoted w).toList ++ [] := by
        rw [show singleQuoted v = singleQuoted w from h]
      exact ⟨rfl, (singleQuoted_append_inj (by simp) (by simp) hlist).1⟩
    all_goals
      -- the texts begin with different quotes
      have hhead := congrArg (·.toList.head?) h
      simp [displayed, singleQuoted, doubleQuoted] at hhead
  · rintro ⟨rfl, rfl⟩
    rfl

/-- **What is shown of a quoted scalar tells its quotes and its string**, and has one end: the first
quote that can close it is its last character.  In double quotes it stays on one line.  So all that
can differ between two such scalars is a modification, and the texts that are shown of its sides
differ, in colour or without. -/
theorem quoted_display_tells (v w : String) (single single' isText isText' : Bool) {l r : Node}
    (hl : l = scalarNode source v (quotedStyle single) isText mark path)
    (hr : r = scalarNode source' w (quotedStyle single') isText' mark' path') :
    (l.text = r.text ↔ single = single' ∧ v = w) ∧
      Enclosed single l.text.toList ∧
      (single = false → ∀ c ∈ ['\n', '\r', '\t'], c ∉ l.text.toList) ∧
      ∀ (options : CompareOptions) (palette : Palette), ∀ d ∈ Compare.nodes options l r,
        d = .modified l r ∧ l.text ≠ r.text ∧
          Emitter.inline palette l ≠ Emitter.inline palette r := by
  rw [scalarNode_quoted] at hl hr
  subst hl hr
  refine ⟨displayed_inj, ?_, ?_, ?_⟩
  · cases single with
    | false => exact enclosed_doubleQuoted v
    | true => exact enclosed_singleQuoted v
  · rintro rfl c hc
    exact notMem_doubleQuoted hc v
  · intro options palette d hd
    cases hsame : Compare.sameScalar (.scalar (.string v) (placeAt source mark _ path))
      (.scalar (.string w) (placeAt source' mark' _ path')) with
    | true =>
        rw [Compare.nodes_of_sameScalar hsame] at hd
        cases hd
    | false =>
        have htexts : displayed single v ≠ displayed single' w := by
          intro h
          obtain ⟨-, rfl⟩ := displayed_inj.mp h
          exact absurd hsame (by simp [Compare.sameScalar, Scalar.sameContent_refl])
        rw [Compare.nodes_of_apart (fun h => by cases h.2) hsame, List.mem_singleton] at hd
        exact ⟨hd, htexts, mt Palette.paint_inj.mp htexts⟩

/-- A scalar in double quotes, at the beginning of a text. -/
def quotedExample (s : String) : Node :=
  scalarNode ⟨#[], [0]⟩ s (quotedStyle false) false .start ""

theorem quoted_display_tells_of_escapes :
    Enclosed false (quotedExample "\\\n").text.toList ∧
      (∀ c ∈ ['\n', '\r', '\t'], c ∉ (quotedExample "\\\n").text.toList) ∧
      .modified (quotedExample "\\\n") (quotedExample "\\n") ∈
        Compare.nodes .positional (quotedExample "\\\n") (quotedExample "\\n") ∧
      (quotedExample "\\\n").text ≠ (quotedExample "\\n").text := by
  obtain ⟨-, henclosed, hline, hmodified⟩ := quoted_display_tells "\\\n" "\\n" false false false false
    (l := quotedExample "\\\n") (r := quotedExample "\\n") rfl rfl
  have hmem : .modified (quotedExample "\\\n") (quotedExample "\\n") ∈
      Compare.nodes .positional (quotedExample "\\\n") (quotedExample "\\n") :=
    List.mem_singleton_self _
  exact ⟨henclosed, hline rfl, hmem, (hmodified .positional .plain _ hmem).2.1⟩

end Markup

end YamlDelta
