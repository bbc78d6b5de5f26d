/-
What is left out, and what is written as nothing.

A node that a text leaves out is null, and so is a written `~`; the first should be shown as `null`
and the second as it is written.  If what is left out is reported as a `~` too, the two are events
of the same kind, and the builder tells them apart by the character at the mark: a `~` that is
written is there.  But only the tokens show what has been left out.  The reader that reports it as
empty follows them (`exists_streamEvents_of_ofText`), and however it is reported the events are the
same otherwise (`exists_reported_of_ofText`), so every node is seen here as the tokens tell it and
as it is reported, and the documents are compared with both (`nulls_told_apart`).

The character at the mark misleads in two ways (`nulls_confused`).  What is left out stands where
the next token does, and if that begins with a `~` it passes for a `~` that is written.  And a `~`
that is written passes for nothing where the mark is not that of its character, which can happen
after a block scalar with a character of several bytes.  A tag that makes a string comes before all
this: it makes one of nothing as well.
-/
import YamlDelta.Proofs.Markup.Beginning
import YamlDelta.Proofs.Markup.Fidelity
import YamlDelta.Proofs.Markup.FirstKey

namespace YamlDelta.Markup

open Written

variable {source : Source} {omitted : Omitted} {w r : Written}

/-! ### Nodes that keep nothing and `~` apart -/

/-- Nothing is written, or only an anchor or a tag that does not make it a string. -/
def Written.isLeftOut : Written → Bool
  | .scalar text style _ isText _ => text == "" && style == .plain && !isText
  | _ => false

/-- The text begins with the character at the mark. -/
def Source.IsAt (source : Source) (text : String) (mark : Mark) : Prop :=
  source.chars[mark.index]? = text.toList.head?

/-- What becomes of a node that is told by the tokens and reported, in this order.  What has been
left out is null, and so is every `~` that is written.  The one is shown as `null` and the other as
it is written, each as long as it is not mistaken for the other.  A tag that makes a string comes
before both. -/
inductive Discerns (source : Source) : Written → Written → Node → Prop
  | leftOut {anchor : Option Nat} {mark : Mark} {path : String} :
      Discerns source (.scalar "" .plain anchor false mark) (.scalar "" .plain anchor false mark)
        (.scalar .null (placeAt source mark "null" path))
  | passed {mark : Mark} {path : String} (elsewhere : ¬source.IsAt "~" mark) :
      Discerns source (.scalar "" .plain none false mark) (.scalar "~" .plain none false mark)
        (.scalar .null (placeAt source mark "null" path))
  | mistaken {mark : Mark} {path : String} (there : source.IsAt "~" mark) :
      Discerns source (.scalar "" .plain none false mark) (.scalar "~" .plain none false mark)
        (.scalar .null (placeAt source mark "~" path))
  | tilde {anchor : Option Nat} {mark : Mark} {path : String} (there : source.IsAt "~" mark) :
      Discerns source (.scalar "~" .plain anchor false mark) (.scalar "~" .plain anchor false mark)
        (.scalar .null (placeAt source mark "~" path))
  | astray {anchor : Option Nat} {mark : Mark} {path : String}
      (elsewhere : ¬source.IsAt "~" mark) :
      Discerns source (.scalar "~" .plain anchor false mark) (.scalar "~" .plain anchor false mark)
        (.scalar .null (placeAt source mark "null" path))
  | text {text : String} {anchor : Option Nat} {mark : Mark} {path : String} :
      Discerns source (.scalar text .plain anchor true mark) (.scalar text .plain anchor true mark)
        (.scalar (.string text) (placeAt source mark text path))
  | other {text : String} {style : Style} {anchor : Option Nat} {isText : Bool} {mark : Mark}
      {path : String} (other : style = .plain → isText = false ∧ text ≠ "" ∧ text ≠ "~") :
      Discerns source (.scalar text style anchor isText mark)
        (.scalar text style anchor isText mark) (scalarNode source text style isText mark path)
  | reference {id : Nat} {mark : Mark} {n : Node} :
      Discerns source (.reference id mark) (.reference id mark) n
  | sequence {anchor : Option Nat} {mark : Mark} {items : List (Written × Written)}
      {is : List Node} {p : Place}
      (discerns : List.Forall₂ (fun w => Discerns source w.1 w.2) items is) :
      Discerns source (.sequence anchor mark (items.map Prod.fst))
        (.sequence anchor mark (items.map Prod.snd)) (.sequence is p)
  | mapping {anchor : Option Nat} {mark : Mark} {ps qs values : List (Written × Written)}
      {fs : List (String × Node)} {p : Place} (told : ps.map Prod.snd = values.map Prod.fst)
      (reported : qs.map Prod.snd = values.map Prod.snd)
      (discerns : List.Forall₂ (fun w => Discerns source w.1 w.2) values (fs.map Prod.snd)) :
      Discerns source (.mapping anchor mark ps) (.mapping anchor mark qs) (.mapping fs p)

/-- The document is absent if its root has been left out, and only then, as long as that is not
mistaken for a `~` that is written, nor the other way round. -/
inductive DiscernsDocument (source : Source) : Written → Written → Option Node → Prop
  | absent {w : Written} (leftOut : w.isLeftOut = true) : DiscernsDocument source w w none
  | passed {mark : Mark} (elsewhere : ¬source.IsAt "~" mark) :
      DiscernsDocument source (.scalar "" .plain none false mark)
        (.scalar "~" .plain none false mark) none
  | astray {anchor : Option Nat} {mark : Mark} (elsewhere : ¬source.IsAt "~" mark) :
      DiscernsDocument source (.scalar "~" .plain anchor false mark)
        (.scalar "~" .plain anchor false mark) none
  | mistaken {mark : Mark} {n : Node} (there : source.IsAt "~" mark)
      (discerns : Discerns source (.scalar "" .plain none false mark)
        (.scalar "~" .plain none false mark) n) :
      DiscernsDocument source (.scalar "" .plain none false mark)
        (.scalar "~" .plain none false mark) (some n)
  | present {w r : Written} {n : Node} (written : w.isLeftOut = false)
      (there : ∀ anchor mark, w = .scalar "~" .plain anchor false mark → source.IsAt "~" mark)
      (discerns : Discerns source w r n) : DiscernsDocument source w r (some n)

/-- The documents of a text, when each is seen as the tokens tell it and as it is reported. -/
structure ToldApart (cs : List Char) (omitted : Omitted) (docs : List (Written × Written))
    (st : Stream) : Prop where
  /-- The tokens tell the events of the one kind. -/
  told : Event.ofText cs = .ok (streamEvents (docs.map Prod.fst))
  tells : Tells (Scan.ofText cs).tokens (streamEvents (docs.map Prod.fst))
  /-- The events of the other kind are those that are reported. -/
  reported : Event.ofText cs omitted = .ok (streamEvents (docs.map Prod.snd))
  same : omitted = .empty → ∀ d ∈ docs, d.1 = d.2
  /-- Up to the first block scalar with a character of several bytes all plain scalars stand at
  their marks. -/
  standing : ∀ t ∈ (Scan.ofText cs).narrowScalars, ∀ s, t.lexeme = .scalar .plain s →
    (Source.ofText cs).IsAt s t.mark
  /-- No document is one absent document. -/
  empty : docs = [] → st.documents = [none]
  documents : docs ≠ [] →
    List.Forall₂ (fun w => DiscernsDocument (Source.ofText cs) w.1 w.2) docs st.documents

/-! ### What is reported keeps them apart -/

theorem isAt_tilde_iff {mark : Mark} :
    source.IsAt "~" mark ↔ source.chars[mark.index]? = some '~' :=
  Iff.rfl

theorem isAbsent_tilde_iff {mark : Mark} :
    Builder.isAbsent source "~" .plain mark = true ↔ ¬source.IsAt "~" mark := by
  rw [isAt_tilde_iff, Builder.isAbsent]
  simp

/-- A plain `~` becomes null, shown as the character at its mark has it. -/
theorem scalarNode_tilde (source : Source) (mark : Mark) (path : String) :
    (source.IsAt "~" mark ∧ scalarNode source "~" .plain false mark path =
        .scalar .null (placeAt source mark "~" path)) ∨
      ¬source.IsAt "~" mark ∧ scalarNode source "~" .plain false mark path =
        .scalar .null (placeAt source mark "null" path) := by
  rw [scalarNode]
  cases h : Builder.isAbsent source "~" .plain mark with
  | true => exact .inr ⟨isAbsent_tilde_iff.mp h, rfl⟩
  | false =>
      refine .inl ⟨?_, rfl⟩
      by_contra helsewhere
      rw [isAbsent_tilde_iff.mpr helsewhere] at h
      cases h

theorem discerns_scalarNode (text : String) (style : Style) (anchor : Option Nat) (isText : Bool)
    (mark : Mark) (path : String) :
    Discerns source (.scalar text style anchor isText mark) (.scalar text style anchor isText mark)
      (scalarNode source text style isText mark path) := by
  by_cases hother : style = .plain → isText = false ∧ text ≠ "" ∧ text ≠ "~"
  · exact .other hother
  · rw [Classical.not_imp] at hother
    obtain ⟨rfl, hother⟩ := hother
    cases isText with
    | true => exact .text
    | false =>
        by_cases hempty : text = ""
        · subst hempty
          exact .leftOut
        · obtain rfl : text = "~" := by
            by_contra hne
            exact hother ⟨rfl, hempty, hne⟩
          rcases scalarNode_tilde source mark path with ⟨hthere, hnode⟩ | ⟨haway, hnode⟩
          · rw [hnode]
            exact .tilde hthere
          · rw [hnode]
            exact .astray haway

/-- What has been left out, however it is reported. -/
theorem discerns_absent (omitted : Omitted) (mark : Mark) (path : String) :
    Discerns source (.scalar "" .plain none false mark)
      (.scalar omitted.text .plain none false mark)
      (scalarNode source omitted.text .plain false mark path) := by
  cases omitted with
  | empty => exact .leftOut
  | tilde =>
      rw [Omitted.text]
      rcases scalarNode_tilde source mark path with ⟨hthere, hnode⟩ | ⟨haway, hnode⟩
      · rw [hnode]
        exact .mistaken hthere
      · rw [hnode]
        exact .passed haway

/-- Two relations in a row are one relation of pairs. -/
theorem exists_pairs {α β γ : Type} {R : α → β → Prop} {S : β → γ → Prop} {T : α → β → γ → Prop}
    {xs : List α} {ys : List β} {zs : List γ} (hxy : List.Forall₂ R xs ys)
    (hyz : List.Forall₂ S ys zs) (hT : ∀ x ∈ xs, ∀ y z, R x y → S y z → T x y z) :
    ∃ ps : List (α × β), xs = ps.map Prod.fst ∧ ys = ps.map Prod.snd ∧
      List.Forall₂ (fun p => T p.1 p.2) ps zs := by
  induction hxy generalizing zs with
  | nil =>
      cases hyz
      exact ⟨[], rfl, rfl, .nil⟩
  | @cons x y xs ys hR _ ih =>
      obtain _ | ⟨hS, hyz⟩ := hyz
      rw [List.forall_mem_cons] at hT
      obtain ⟨ps, rfl, rfl, hps⟩ := ih hyz hT.2
      exact ⟨(x, y) :: ps, rfl, rfl, .cons (hT.1 y _ hR hS) hps⟩

theorem discerns_of_follows :
    ∀ (w r : Written) (n : Node), w.Reported omitted r → Follows source r n →
      Discerns source w r n := by
  intro w
  induction w using Written.induct with
  | reference id mark =>
      rintro _ n ⟨⟩ -
      exact .reference
  | scalar text style anchor isText mark =>
      intro r n hreported hfollows
      generalize hw : Written.scalar text style anchor isText mark = w at hreported
      cases hreported with
      | leftOut =>
          cases hw
          cases hfollows
          exact discerns_absent omitted _ _
      | scalar =>
          cases hfollows
          exact discerns_scalarNode ..
      | _ => cases hw
  | sequence anchor mark ws ih =>
      rintro _ _ (_ | _ | _ | hreported) (_ | _ | hitems)
      obtain ⟨items, rfl, rfl, hdiscerns⟩ := exists_pairs hreported hitems ih
      exact .sequence hdiscerns
  | mapping anchor mark es ih =>
      rintro _ _ (_ | _ | _ | _ | ⟨-, hreported⟩) (_ | _ | _ | ⟨-, hvalues⟩)
      obtain ⟨values, htold, hreported, hdiscerns⟩ :=
        exists_pairs hreported hvalues fun v hv => by
          obtain ⟨e, he, rfl⟩ := List.mem_map.mp hv
          exact (ih e he).2
      exact .mapping htold hreported hdiscerns

/-- What the builder takes for nothing. -/
theorem isAbsent_iff : w.isAbsent source = true ↔ w.isLeftOut = true ∨
    ∃ anchor mark, w = .scalar "~" .plain anchor false mark ∧ ¬source.IsAt "~" mark := by
  cases w with
  | scalar text style anchor isText mark =>
      rw [Written.isAbsent, isLeftOut, Builder.isAbsent]
      simp only [Bool.and_eq_true, Bool.or_eq_true, Bool.not_eq_true', beq_iff_eq, bne_iff_ne,
        String.isEmpty_iff, Written.scalar.injEq, isAt_tilde_iff]
      constructor
      · rintro ⟨rfl, rfl, rfl | ⟨rfl, hchar⟩⟩
        · exact .inl ⟨⟨rfl, rfl⟩, rfl⟩
        · exact .inr ⟨anchor, mark, ⟨rfl, rfl, rfl, rfl, rfl⟩, hchar⟩
      · rintro (⟨⟨rfl, rfl⟩, rfl⟩ | ⟨_, _, ⟨rfl, rfl, rfl, rfl, rfl⟩, hchar⟩)
        · exact ⟨rfl, rfl, .inl rfl⟩
        · exact ⟨rfl, rfl, .inr ⟨rfl, hchar⟩⟩
  | reference | sequence | mapping =>
      refine ⟨fun h => ?_, fun h => ?_⟩
      · cases h
      · rcases h with h | ⟨_, _, h, -⟩
        all_goals cases h

/-- A document whose root is reported as the tokens tell it. -/
theorem discernsDocument_of_same {d : Option Node} (h : IsDocument source w d)
    (hdiscerns : ∀ n, Follows source w n → Discerns source w w n) :
    DiscernsDocument source w w d := by
  cases h with
  | absent habsent =>
      rcases isAbsent_iff.mp habsent with hleftOut | ⟨anchor, mark, rfl, helsewhere⟩
      · exact .absent hleftOut
      · exact .astray helsewhere
  | present hpresent hfollows =>
      have hnot : ¬w.isAbsent source = true := by
        rw [hpresent]
        exact Bool.false_ne_true
      rw [isAbsent_iff, not_or] at hnot
      refine .present (Bool.eq_false_iff.mpr hnot.1) (fun anchor mark hw => ?_)
        (hdiscerns _ hfollows)
      by_contra helsewhere
      exact hnot.2 ⟨anchor, mark, hw, helsewhere⟩

theorem discernsDocument_of_isDocument {d : Option Node} (hreported : w.Reported omitted r)
    (h : IsDocument source r d) : DiscernsDocument source w r d := by
  have hdiscerns : ∀ n, Follows source r n → Discerns source w r n :=
    fun n => discerns_of_follows w r n hreported
  cases hreported with
  | @leftOut mark =>
      cases omitted with
      | empty => exact discernsDocument_of_same h hdiscerns
      | tilde =>
          cases h with
          | absent habsent => exact .passed (isAbsent_tilde_iff.mp habsent)
          | present hpresent hfollows =>
              refine .mistaken ?_ (hdiscerns _ hfollows)
              by_contra helsewhere
              have hpresent : Builder.isAbsent source "~" .plain mark = false := hpresent
              rw [isAbsent_tilde_iff.mpr helsewhere] at hpresent
              cases hpresent
  | scalar | reference => exact discernsDocument_of_same h hdiscerns
  | sequence | mapping =>
      cases h with
      | absent habsent => cases habsent
      | present _ hfollows =>
          exact .present rfl (fun _ _ h => by cases h) (hdiscerns _ hfollows)

/-- The events of a text are those of trees that the tokens tell, or of trees that report these. -/
theorem exists_told_of_ofText {cs : List Char} {es : List Event}
    (h : Event.ofText cs omitted = .ok es) :
    ∃ ds rs, Event.ofText cs = .ok (streamEvents ds) ∧
      Tells (Scan.ofText cs).tokens (streamEvents ds) ∧ es = streamEvents rs ∧
      List.Forall₂ (Written.Reported omitted) ds rs ∧ (omitted = .empty → ds = rs) := by
  obtain ⟨ts, htold, hes⟩ := exists_reported_of_ofText h
  obtain ⟨ds, rfl, htells⟩ := exists_streamEvents_of_ofText htold
  by_cases hempty : omitted = .empty
  · subst hempty
    rw [htold] at h
    exact ⟨ds, ds, htold, htells, (Except.ok.inj h).symm,
      List.forall₂_same.mpr fun w _ => .refl w, fun _ => rfl⟩
  · obtain ⟨rs, hrs, hreported⟩ := exists_reported_of_streamEvents hes
    exact ⟨ds, rs, htold, htells, hrs, hreported, fun h => absurd h hempty⟩

/-- The parts of the documents, each with its kind and the text it is shown with. -/
def shown (st : Stream) : List (Option (List (Kind × String))) :=
  st.documents.map (Option.map fun n =>
    match n with
    | .scalar _ _ => [(n.kind, n.text)]
    | .sequence is _ => is.map fun n => (n.kind, n.text)
    | .mapping es _ => es.map fun e => (e.2.kind, e.2.text))

/-- Reading a text and looking at the parts of its documents is enough to have what is read. -/
theorem exists_of_shown {text : String} {parts : List (Option (List (Kind × String)))}
    (h : (Stream.ofText text omitted).toOption.map shown = some parts) :
    ∃ st, Stream.ofText text omitted = .ok st ∧ shown st = parts := by
  cases hst : Stream.ofText text omitted with
  | error e =>
      rw [hst] at h
      cases h
  | ok st =>
      rw [hst] at h
      exact ⟨st, rfl, Option.some.inj h⟩

/-- **What has been left out and a `~` that is written are told apart**, except by mistake. -/
theorem nulls_told_apart {text : String} {st : Stream} (h : Stream.ofText text omitted = .ok st) :
    ∃ docs, ToldApart text.toList omitted docs st := by
  obtain ⟨es, hevents, hstream⟩ := exists_of_ofChars h
  obtain ⟨ds, rs, htold, htells, rfl, hreported, hsame⟩ := exists_told_of_ofText hevents
  have hplaced := placed_of_ofEvents hstream
  rw [ofEvents_streamEvents] at hstream
  obtain ⟨read, hread, rfl⟩ := exists_of_resolved_ok hstream
  have hstanding : ∀ t ∈ (Scan.ofText text.toList).narrowScalars, ∀ s,
      t.lexeme = .scalar .plain s → (Source.ofText text.toList).IsAt s t.mark :=
    fun t ht s hs => List.getElem?_toArray.trans (Scan.begins_of_mem ht hs)
  by_cases hrs : rs = []
  · subst hrs
    obtain rfl := List.forall₂_nil_right_iff.mp hreported
    exact ⟨[], htold, htells, hevents, fun _ => List.forall_mem_nil _, hstanding,
      fun _ => rfl, fun h => absurd rfl h⟩
  · simp only [if_neg hrs] at hplaced ⊢
    obtain ⟨docs, rfl, rfl, hdocs⟩ :=
      exists_pairs hreported (isDocument_of_documents [] read hread hplaced)
        fun w _ r d hw hd => discernsDocument_of_isDocument hw hd
    refine ⟨docs, htold, htells, hevents, fun h => List.map_inj_left.mp (hsame h), hstanding,
      fun h => ?_, fun _ => hdocs⟩
    rw [h] at hrs
    exact absurd rfl hrs

/-- A value that has been left out, one that is written, and one that a tag comes before. -/
theorem null_and_tilde :
    ∃ st, Stream.ofText "a:\nb: ~\nc: !!str ~\n" .tilde = .ok st ∧
      shown st = [some [(.null, "null"), (.null, "~"), (.string, "~")]] ∧
      ∃ docs, ToldApart "a:\nb: ~\nc: !!str ~\n".toList .tilde docs st := by
  obtain ⟨st, hst, hshown⟩ := exists_of_shown
    (show (Stream.ofText "a:\nb: ~\nc: !!str ~\n" .tilde).toOption.map shown =
      some [some [(.null, "null"), (.null, "~"), (.string, "~")]] by decide +kernel)
  exact ⟨st, hst, hshown, nulls_told_apart hst⟩

/-- The two are confused where the next token begins with a `~`: of two items, and of two scalars,
only one is written here.  And they are confused where the marks have gone astray: a document is
missing although a `~` is written. -/
theorem nulls_confused :
    (∃ st, Stream.ofText "-\n- ~\n" .tilde = .ok st ∧
      (scalarTokens (Scan.ofText "-\n- ~\n".toList).tokens).map Token.lexeme =
        [.scalar .plain "~"] ∧
      shown st = [some [(.null, "~"), (.null, "~")]]) ∧
    (∃ st, Stream.ofText "a:\n~: b\n" .tilde = .ok st ∧
      (scalarTokens (Scan.ofText "a:\n~: b\n".toList).tokens).map Token.lexeme =
        [.scalar .plain "a", .scalar .plain "~", .scalar .plain "b"] ∧
      shown st = [some [(.null, "~"), (.string, "b")]]) ∧
    ∃ st, Stream.ofText "|\n  0123456789abcdef é\n---\n~\n" = .ok st ∧
      (scalarTokens (Scan.ofText "|\n  0123456789abcdef é\n---\n~\n".toList).tokens).map
        Token.lexeme = [.scalar .literal "0123456789abcdef é\n", .scalar .plain "~"] ∧
      shown st = [some [(.literal, "0123456789abcdef é\n")], none] := by
  obtain ⟨st, hst, hshown⟩ := exists_of_shown
    (show (Stream.ofText "-\n- ~\n" .tilde).toOption.map shown =
      some [some [(.null, "~"), (.null, "~")]] by decide +kernel)
  obtain ⟨st', hst', hshown'⟩ := exists_of_shown
    (show (Stream.ofText "a:\n~: b\n" .tilde).toOption.map shown =
      some [some [(.null, "~"), (.string, "b")]] by decide +kernel)
  obtain ⟨st'', hst'', hshown''⟩ := exists_of_shown
    (show (Stream.ofText "|\n  0123456789abcdef é\n---\n~\n").toOption.map shown =
      some [some [(.literal, "0123456789abcdef é\n")], none] by decide +kernel)
  exact ⟨⟨st, hst, by decide +kernel, hshown⟩, ⟨st', hst', by decide +kernel, hshown'⟩,
    st'', hst'', by decide +kernel, hshown''⟩

end YamlDelta.Markup
