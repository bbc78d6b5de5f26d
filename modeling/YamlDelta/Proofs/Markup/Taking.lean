/-
What a step of the reader takes.

A scalar that is written is a token, and one that is left out is none: it stands where the token is
that comes instead.  Every step inside a document takes the token of its event, if that is a scalar
that is written, and no other scalar (`takes_step`).  The reader here is the one that reports as
empty whatever is left out.

A step may also take no token at all, but it pays for that: what is expected afterwards costs less.
A node that is left out is an event without a token, so this is not clear, and one thing stands in
the way: after a key that is left out its value is expected, and after a value that is left out the
next key.  But a key is left out only before a value, and a value only where none comes, so the cost
of a key depends on the token at hand (`Expectation.cost`).
-/
import YamlDelta.Proofs.Markup.Expected
import YamlDelta.Proofs.Markup.Reporting

namespace YamlDelta.Markup

/-! ### Scalars -/

/-- The token is a scalar. -/
def Lexeme.isScalar : Lexeme → Bool
  | .scalar _ _ => true
  | _ => false

@[inherit_doc Lexeme.isScalar]
def Token.isScalar (t : Token) : Bool :=
  t.lexeme.isScalar

/-- The scalars among tokens. -/
def scalarTokens (ts : List Token) : List Token :=
  ts.filter Token.isScalar

/-- The token of a scalar.  A scalar that is left out has none. -/
def Event.scalar? : Event → Option Token
  | .scalar text style _ _ mark =>
    if style = .plain ∧ text = "" then none else some ⟨mark, .scalar style text⟩
  | _ => none

/-- The place of a scalar that is left out. -/
def Event.leftOutAt? : Event → Option Mark
  | .scalar text style _ _ mark => if style = .plain ∧ text = "" then some mark else none
  | _ => none

/-- The event is a scalar that its tag makes a string. -/
def Event.isText : Event → Bool
  | .scalar _ _ _ isText _ => isText
  | _ => false

/-- The event without its tag. -/
def Event.untagged : Event → Event
  | .scalar text style anchor _ mark => .scalar text style anchor false mark
  | e => e

/-- The event is no scalar. -/
def Event.isBare : Event → Bool
  | .scalar _ _ _ _ _ => false
  | _ => true

/-- A tag that makes its scalar a string. -/
def Token.IsTextTag (t : Token) : Prop :=
  ∃ handle, t.lexeme = .tag handle "str"

/-- The tokens tell the event, and then others come: its scalar is among them, if it has one, and no
other scalar, and so is its tag, if that makes it a string.  A scalar that is left out stands where
the last of them does, or the next token. -/
structure Told (ts us : List Token) (e : Event) : Prop where
  scalars : scalarTokens ts = e.scalar?.toList
  tag : e.isText = true → ∃ t ∈ ts, t.IsTextTag
  place : ∀ m ∈ e.leftOutAt?, ∃ t, (t ∈ ts.getLast? ∨ t ∈ us.head?) ∧ t.mark = m

/-- No scalar without quotes is empty. -/
def Solid (ts : List Token) : Prop :=
  ∀ t ∈ ts, t.lexeme ≠ .scalar .plain ""

variable {ts us vs : List Token} {t u : Token}

@[simp] theorem scalarTokens_append (ts us : List Token) :
    scalarTokens (ts ++ us) = scalarTokens ts ++ scalarTokens us :=
  List.filter_append ..

theorem scalarTokens_cons_of_not (h : t.isScalar = false) (ts : List Token) :
    scalarTokens (t :: ts) = scalarTokens ts :=
  List.filter_cons_of_neg (by rw [h]; exact Bool.false_ne_true)

theorem isScalar_of_lexeme {l : Lexeme} (h : t.lexeme = l) (hl : l.isScalar = false) :
    t.isScalar = false := by
  rw [Token.isScalar, h, hl]

theorem Event.scalar?_untagged (e : Event) : e.untagged.scalar? = e.scalar? := by
  cases e <;> rfl

theorem Event.leftOutAt?_untagged (e : Event) : e.untagged.leftOutAt? = e.leftOutAt? := by
  cases e <;> rfl

theorem told_of_isBare {e : Event} (he : e.isBare = true) (hts : scalarTokens ts = []) :
    Told ts us e := by
  cases e with
  | scalar => cases he
  | _ =>
      refine ⟨hts, fun h => ?_, fun m hm => ?_⟩
      · cases h
      · cases hm

/-- A node is left out where a token is. -/
theorem told_absent (hts : scalarTokens ts = []) (ht : t ∈ ts.getLast? ∨ t ∈ us.head?)
    (anchor : Option Nat) : Told ts us (.scalar "" .plain anchor false t.mark) := by
  refine ⟨hts, fun h => ?_, fun m hm => ⟨t, ht, Option.some.inj hm⟩⟩
  cases h

/-- More tokens that are no scalars come first. -/
theorem Told.append {e : Event} (h : Told us vs e) (hts : scalarTokens ts = []) :
    Told (ts ++ us) vs e := by
  refine ⟨by rw [scalarTokens_append, hts, h.scalars]; rfl, fun htext => ?_, fun m hm => ?_⟩
  · obtain ⟨t, ht, htag⟩ := h.tag htext
    exact ⟨t, List.mem_append_right ts ht, htag⟩
  · obtain ⟨t, ht, rfl⟩ := h.place m hm
    exact ⟨t, ht.imp_left List.mem_getLast?_append_of_mem_getLast?, rfl⟩

theorem Solid.of_append (h : Solid (ts ++ us)) : Solid us :=
  fun t ht => h t (List.mem_append_right ts ht)

/-! ### The cost of what is expected -/

namespace Expectation

/-- The token that begins the collection is still to be passed. -/
def opens : Expectation → Bool
  | .blockKey true | .blockEntry true | .flowEntry true | .flowKey true => true
  | _ => false

/-- A bound of the steps before the next token is taken, whatever it is. -/
def most : Expectation → Nat
  | .document | .blockEntry _ | .indentlessEntry | .flowEntry _ | .flowKey _ => 1
  | .documentEnd | .blockValue | .flowValue | .flowNoValue | .pairEnd => 2
  | .blockKey _ | .pairValue => 3
  | .content | .blockNode => 4
  | .implicitDocument | .pairKey => 7

/-- A bound of the steps before one of these tokens is taken.  A key is left out only where a value
comes, and a value only where none comes, so one of the two takes a token. -/
def cost (x : Expectation) (ts : List Token) : Nat :=
  match x with
  | .blockKey _ => if ts.head?.map Token.lexeme = some .value then 3 else 1
  | x => x.most

theorem cost_le (x : Expectation) (ts : List Token) : x.cost ts ≤ x.most := by
  cases x with
  | blockKey first =>
      show (if _ then 3 else 1) ≤ 3
      split <;> decide
  | _ => exact Nat.le_refl _

theorem cost_pos (x : Expectation) (ts : List Token) : 0 < x.cost ts := by
  cases x with
  | blockKey first =>
      show 0 < (if _ then 3 else 1)
      split <;> decide
  | _ => exact Nat.zero_lt_succ _

theorem most_lt (x : Expectation) : x.most < 8 := by
  cases x <;> exact Nat.le_of_ble_eq_true rfl

/-- The bounds of several expectations together. -/
def mostOf : List Expectation → Nat
  | [] => 0
  | x :: E => x.most + mostOf E

theorem mostOf_append (E F : List Expectation) : mostOf (E ++ F) = mostOf E + mostOf F := by
  induction E with
  | nil => exact (Nat.zero_add _).symm
  | cons x E ih => rw [List.cons_append, mostOf, mostOf, ih, Nat.add_assoc]

/-- The cost of several expectations, of which the first comes before these tokens. -/
def costOf (ts : List Token) : List Expectation → Nat
  | [] => 0
  | x :: E => x.cost ts + mostOf E

theorem costOf_append (ts : List Token) (E F : List Expectation) :
    costOf ts (E ++ F) ≤ costOf ts E + mostOf F := by
  cases E with
  | nil =>
      cases F with
      | nil => exact Nat.le_refl _
      | cons y F =>
          rw [List.nil_append, costOf, costOf, mostOf, Nat.zero_add]
          exact Nat.add_le_add_right (y.cost_le ts) _
  | cons x E =>
      rw [List.cons_append, costOf, costOf, mostOf_append]
      exact Nat.le_of_eq (Nat.add_assoc ..).symm

/-- Only the first expectation can be one of a first entry, and then the token before that comes
next. -/
structure Ready (ts : List Token) (E : List Expectation) : Prop where
  first : ∀ x ∈ E.head?, x.opens = true → ∀ t ∈ ts.head?, t.isScalar = false
  others : ∀ x ∈ E.tail, x.opens = false

theorem ready_nil : Ready ts [] := by
  refine ⟨fun x hx => ?_, fun x hx => ?_⟩
  all_goals cases hx

theorem ready_singleton {x : Expectation}
    (h : x.opens = true → ∀ t ∈ ts.head?, t.isScalar = false) : Ready ts [x] :=
  ⟨fun y hy => by cases hy; exact h, List.forall_mem_nil _⟩

theorem ready_of_not_opens {E : List Expectation} (h : ∀ x ∈ E, x.opens = false) : Ready ts E := by
  refine ⟨fun x hx hopens => ?_, fun x hx => h x (List.mem_of_mem_tail hx)⟩
  rw [h x (List.mem_of_mem_head? hx)] at hopens
  cases hopens

theorem Ready.append {E F : List Expectation} (h : Ready ts E) (hF : ∀ x ∈ F, x.opens = false) :
    Ready ts (E ++ F) := by
  cases E with
  | nil => exact ready_of_not_opens hF
  | cons x E =>
      exact ⟨h.first, fun y hy => (List.mem_append.mp hy).elim (h.others y) (hF y)⟩

end Expectation

open Expectation

namespace Reader

/-- A bound of the steps that are left. -/
def cost (r : Reader) : Nat :=
  8 * r.tokens.length + costOf r.tokens r.expected

/-- What is left out is reported as empty, and no plain scalar that is written is. -/
structure Clear (r : Reader) : Prop where
  solid : Solid r.tokens
  omitted : r.omitted = .empty

/-- A step in place of the topmost expectation has taken the tokens that tell its event, and it has
paid for what is expected instead. -/
def Takes (bound : Nat) (E : List Expectation) (e : Event) (r s : Reader) : Prop :=
  ∃ E₁ ts, s.expected = E₁ ++ E ∧ r.tokens = ts ++ s.tokens ∧
    Told ts s.tokens e ∧ Ready s.tokens E₁ ∧
    costOf s.tokens E₁ < 8 * ts.length + bound

variable {r s q : Reader} {E : List Expectation} {x y : Expectation} {e : Event} {b b' : Nat}
  {block indentless : Bool}

theorem tokens_of_peek (h : r.peek = .ok t) : r.tokens = t :: r.pass.tokens := by
  unfold peek at h
  split at h
  · rename_i u us hu
    cases h
    show r.tokens = t :: r.tokens.drop 1
    rw [hu]
    rfl
  · cases h

theorem Clear.pass (h : r.Clear) : r.pass.Clear :=
  ⟨fun t ht => h.solid t (List.mem_of_mem_drop ht), h.omitted⟩

/-- Where a node is left out it is reported as empty. -/
theorem Clear.absent_eq (h : r.Clear) (y : Expectation) (t : Token) :
    (r.expect y).absent t = .ok (.scalar "" .plain none false t.mark, r.expect y) := by
  show Except.ok (Event.absent r.omitted t.mark, _) = _
  rw [h.omitted]
  rfl

/-- A token that is no scalar has been passed before. -/
theorem Takes.pass (h : Takes b E e q s) (hq : r.tokens = t :: q.tokens)
    (ht : t.isScalar = false) (hb : b ≤ 8 + b') : Takes b' E e r s := by
  obtain ⟨E₁, ts, hs, htokens, htold, hready, hcost⟩ := h
  refine ⟨E₁, t :: ts, hs, by rw [hq, htokens]; rfl, ?_, hready, ?_⟩
  · exact htold.append (scalarTokens_cons_of_not ht [])
  · rw [List.length_cons]
    omega

theorem Takes.mono (h : Takes b E e r s) (hb : b ≤ b') : Takes b' E e r s := by
  obtain ⟨E₁, ts, hs, htokens, htold, hready, hcost⟩ := h
  exact ⟨E₁, ts, hs, htokens, htold, hready, Nat.lt_of_lt_of_le hcost (Nat.add_le_add_left hb _)⟩

/-- No token is taken, and something else is expected. -/
theorem takes_expect (hr : r.expected = x :: E) (hs : s.expected = y :: r.expected.drop 1)
    (htokens : s.tokens = r.tokens) (htold : Told [] r.tokens e)
    (hopens : y.opens = true → ∀ t ∈ r.tokens.head?, t.isScalar = false)
    (hb : y.cost r.tokens < b) : Takes b E e r s := by
  refine ⟨[y], [], by rw [hs, hr]; rfl, by rw [htokens]; rfl, by rw [htokens]; exact htold, ?_, ?_⟩
  · rw [htokens]
    exact ready_singleton hopens
  · rw [htokens]
    show y.cost r.tokens + 0 < 8 * 0 + b
    omega

/-- A token that is no scalar is taken, and nothing is expected instead. -/
theorem takes_pass (hr : r.expected = x :: E) (ht : r.tokens = t :: s.tokens)
    (hscalar : t.isScalar = false) (hs : s.expected = r.expected.drop 1) (he : e.isBare = true) :
    Takes b E e r s := by
  refine ⟨[], [t], by rw [hs, hr]; rfl, ht,
    told_of_isBare he (scalarTokens_cons_of_not hscalar []), ready_nil, ?_⟩
  show 0 < 8 * 1 + b
  omega

/-- No token is taken, and nothing is expected instead. -/
theorem takes_complete (hr : r.expected = x :: E) (hs : s.expected = r.expected.drop 1)
    (htokens : s.tokens = r.tokens) (htold : Told [] r.tokens e) (hb : 0 < b) :
    Takes b E e r s := by
  refine ⟨[], [], by rw [hs, hr]; rfl, htokens.symm, by rw [htokens]; exact htold, ready_nil, ?_⟩
  show 0 < 8 * 0 + b
  omega

/-- A node is left out before a token. -/
theorem told_absent_before (ht : r.peek = .ok t) (anchor : Option Nat) :
    Told [] r.tokens (.scalar "" .plain anchor false t.mark) :=
  told_absent rfl (.inr (by rw [tokens_of_peek ht]; rfl)) anchor

@[inherit_doc told_absent_before]
theorem takes_absent (hclear : r.Clear) (hr : r.expected = x :: E) (ht : r.peek = .ok t)
    (hy : y.opens = false) (hb : y.cost r.tokens < b)
    (h : (r.expect y).absent t = .ok (e, s)) : Takes b E e r s := by
  rw [hclear.absent_eq] at h
  cases h
  exact takes_expect hr rfl rfl (told_absent_before ht none) (fun h => by rw [hy] at h; cases h) hb

/-! ### Nodes -/

theorem isTextTag_of_tagIsText {handle suffix : String} {m : Mark}
    (ht : t.lexeme = .tag handle suffix) (h : r.tagIsText m handle suffix = .ok true) :
    t.IsTextTag := by
  unfold tagIsText at h
  split at h
  · cases h
  · have hsuffix : suffix = "str" := eq_of_beq (Except.ok.inj h)
    exact ⟨handle, hsuffix ▸ ht⟩

theorem omitted_properties {p : Properties} (h : r.properties = .ok (p, q)) :
    q.omitted = r.omitted := by
  unfold properties at h
  obtain ⟨t, -, h⟩ := exists_of_bind_ok h
  split at h
  · obtain ⟨u, -, h⟩ := exists_of_bind_ok h
    split at h
    · obtain ⟨isText, -, h⟩ := exists_of_bind_ok h
      cases h
      rfl
    · cases h
      rfl
  · obtain ⟨isText, -, h⟩ := exists_of_bind_ok h
    obtain ⟨u, -, h⟩ := exists_of_bind_ok h
    split at h
    · cases h
      rfl
    · cases h
      rfl
  · cases h
    rfl

/-- The tokens of properties are no scalars, and among them is the tag. -/
theorem exists_of_properties {p : Properties} (h : r.properties = .ok (p, q)) :
    ∃ us, r.tokens = us ++ q.tokens ∧ scalarTokens us = [] ∧
      (p.tag = some true → ∃ u ∈ us, u.IsTextTag) := by
  unfold properties at h
  obtain ⟨t, ht, h⟩ := exists_of_bind_ok h
  have htokens := tokens_of_peek ht
  have htwo : ∀ {v u : Token} {l l' : Lexeme}, v.lexeme = l → u.lexeme = l' →
      l.isScalar = false → l'.isScalar = false → scalarTokens [v, u] = [] :=
    fun hv hu hl hl' => by
      rw [scalarTokens_cons_of_not (isScalar_of_lexeme hv hl),
        scalarTokens_cons_of_not (isScalar_of_lexeme hu hl')]
      rfl
  split at h
  · rename_i name hname
    obtain ⟨u, hu, h⟩ := exists_of_bind_ok h
    split at h
    · rename_i handle suffix htag
      obtain ⟨isText, htext, h⟩ := exists_of_bind_ok h
      cases h
      refine ⟨[t, u], by rw [htokens]; exact congrArg (t :: ·) (tokens_of_peek hu),
        htwo hname htag rfl rfl, fun h => ?_⟩
      obtain rfl := Option.some.inj h
      exact ⟨u, List.mem_cons_of_mem t (List.mem_singleton_self u),
        isTextTag_of_tagIsText htag htext⟩
    · cases h
      exact ⟨[t], htokens, scalarTokens_cons_of_not (isScalar_of_lexeme hname rfl) [],
        fun h => by cases h⟩
  · rename_i handle suffix htag
    obtain ⟨isText, htext, h⟩ := exists_of_bind_ok h
    obtain ⟨u, hu, h⟩ := exists_of_bind_ok h
    split at h
    · rename_i name hname
      cases h
      refine ⟨[t, u], by rw [htokens]; exact congrArg (t :: ·) (tokens_of_peek hu),
        htwo htag hname rfl rfl, fun h => ?_⟩
      obtain rfl := Option.some.inj h
      exact ⟨t, List.mem_cons_self, isTextTag_of_tagIsText htag htext⟩
    · cases h
      refine ⟨[t], htokens, scalarTokens_cons_of_not (isScalar_of_lexeme htag rfl) [], fun h => ?_⟩
      obtain rfl := Option.some.inj h
      exact ⟨t, List.mem_singleton_self t, isTextTag_of_tagIsText htag htext⟩
  · cases h
    exact ⟨[], rfl, rfl, fun h => by cases h⟩

/-- The scalar that is taken is the event. -/
theorem told_of_token {anchor : Option Nat} {style : Style} {text : String}
    (ht : t.lexeme = .scalar style text) (hsolid : t.lexeme ≠ .scalar .plain "") :
    Told [t] us (.scalar text style anchor false t.mark) := by
  obtain ⟨mark, l⟩ := t
  obtain rfl : l = .scalar style text := ht
  have hthere : ¬(style = .plain ∧ text = "") := by
    rintro ⟨rfl, rfl⟩
    exact hsolid rfl
  refine ⟨?_, fun h => (by cases h), fun m hm => ?_⟩
  · rw [Event.scalar?, if_neg hthere]
    rfl
  · rw [Event.leftOutAt?, if_neg hthere] at hm
    cases hm

/-- The content of a node, whose tag has been taken before. -/
theorem takes_nodeContent {p : Properties} (hclear : r.Clear) (hr : r.expected = x :: E)
    (h : r.nodeContent block indentless p = .ok (e, s)) :
    Takes 4 E e.untagged r s ∧ (e.isText = true → p.tag = some true) := by
  obtain ⟨t, ht, h⟩ := exists_of_bind_ok h
  have htokens := tokens_of_peek ht
  have htag : p.tag.getD false = true → p.tag = some true := by
    cases p.tag with
    | none => exact fun h => by cases h
    | some b => exact fun h => congrArg some h
  have hmissing : ∀ {anchor}, Takes 4 E (.scalar "" .plain anchor false t.mark) r r.complete :=
    fun {anchor} => takes_complete hr rfl rfl (told_absent_before ht anchor) (Nat.zero_lt_succ 3)
  -- a collection begins, whose first token is passed later
  have hopen : ∀ {e y}, e.isBare = true → t.isScalar = false → y.most < 4 →
      Takes 4 E e r (r.expect y) := fun {e y} he hscalar hy =>
    takes_expect hr rfl rfl (told_of_isBare he rfl)
      (fun _ u hu => by rw [htokens] at hu; cases hu; exact hscalar)
      (Nat.lt_of_le_of_lt (y.cost_le _) hy)
  dsimp only at h
  split at h
  case h_2 style text hlexeme =>
    cases h
    refine ⟨⟨[], [t], by show r.expected.drop 1 = _; rw [hr]; rfl, htokens, ?_, ready_nil,
      Nat.zero_lt_succ _⟩, htag⟩
    exact told_of_token hlexeme (hclear.solid t (by rw [htokens]; exact List.mem_cons_self))
  all_goals
    rename_i hlexeme
    repeat' split at h
    all_goals cases h
  all_goals first
    | exact ⟨hmissing, htag⟩
    | exact ⟨hopen rfl (isScalar_of_lexeme hlexeme rfl) (by decide), fun h => by cases h⟩

theorem takes_node (hclear : r.Clear) (hr : r.expected = x :: E)
    (h : r.node block indentless = .ok (e, s)) : Takes 4 E e r s := by
  obtain ⟨t, ht, h⟩ := exists_of_bind_ok h
  split at h
  · rename_i name hname
    split at h
    · cases h
      exact takes_pass hr (tokens_of_peek ht) (isScalar_of_lexeme hname rfl) rfl rfl
    · cases h
  · obtain ⟨⟨p, q⟩, hq, h⟩ := exists_of_bind_ok h
    obtain ⟨us, hus, hscalars, htag⟩ := exists_of_properties hq
    have hclear' : q.Clear :=
      ⟨(hus ▸ hclear.solid).of_append, (omitted_properties hq).trans hclear.omitted⟩
    obtain ⟨⟨E₁, ts, hs, htokens, htold, hready, hcost⟩, htext⟩ :=
      takes_nodeContent hclear' ((expected_properties hq).trans hr) h
    refine ⟨E₁, us ++ ts, hs, ?_, ⟨?_, fun h => ?_, ?_⟩, hready, ?_⟩
    · rw [hus, htokens, List.append_assoc]
    · rw [(htold.append hscalars).scalars, Event.scalar?_untagged]
    · obtain ⟨u, hu, htag⟩ := htag (htext h)
      exact ⟨u, List.mem_append_left ts hu, htag⟩
    · rw [← Event.leftOutAt?_untagged]
      exact (htold.append hscalars).place
    · rw [List.length_append]
      omega

/-- A node, and what is expected after it. -/
theorem takes_nodeThen (hclear : r.Clear) (hr : r.expected = x :: E) (hy : y.opens = false)
    (h : r.nodeThen y block indentless = .ok (e, s)) : Takes (4 + y.most) E e r s := by
  have hE : (r.expect y).expected = y :: E := by
    show y :: r.expected.drop 1 = _
    rw [hr]
    rfl
  obtain ⟨E₁, ts, hs, htokens, htold, hready, hcost⟩ := takes_node
    (r := { r.expect y with expected := .blockNode :: (r.expect y).expected })
    ⟨hclear.solid, hclear.omitted⟩ rfl h
  refine ⟨E₁ ++ [y], ts, ?_, htokens, htold,
    hready.append (List.forall_mem_singleton.mpr hy), ?_⟩
  · rw [hs, hE, List.append_assoc]
    rfl
  · have hle := costOf_append s.tokens E₁ [y]
    have hy' : mostOf [y] = y.most := Nat.add_zero _
    omega

/-- After an indicator a node is left out. -/
theorem takes_absent_after (hclear : r.Clear) (hr : r.expected = x :: E) (ht : r.peek = .ok t)
    (hscalar : t.isScalar = false) (hu : u = t ∨ r.pass.peek = .ok u) (hy : y.opens = false)
    (h : (r.pass.expect y).absent u = .ok (e, s)) : Takes b E e r s := by
  rw [hclear.pass.absent_eq] at h
  cases h
  refine ⟨[y], [t], by show y :: r.expected.drop 1 = _; rw [hr]; rfl, tokens_of_peek ht,
    told_absent (scalarTokens_cons_of_not hscalar []) (hu.imp (fun h => by rw [h]; rfl) fun h => ?_)
      none, ready_singleton fun h => (by rw [hy] at h; cases h), ?_⟩
  · show u ∈ r.pass.tokens.head?
    rw [tokens_of_peek h]
    rfl
  · have hlt := Nat.lt_of_le_of_lt (y.cost_le r.pass.tokens) (most_lt y)
    show y.cost r.pass.tokens + 0 < 8 * 1 + b
    omega

/-- After an indicator there is a node. -/
theorem takes_nodeThen_after (hclear : r.Clear) (hr : r.expected = x :: E)
    (ht : r.peek = .ok t) (hscalar : t.isScalar = false) (hy : y.opens = false) (hmost : y.most ≤ 4)
    (h : r.pass.nodeThen y block indentless = .ok (e, s)) : Takes b E e r s :=
  (takes_nodeThen (r := r.pass) hclear.pass hr hy h).pass (tokens_of_peek ht) hscalar
    (by omega)

/-! ### Block collections -/

theorem takes_blockPart (hclear : r.Clear) (hr : r.expected = x :: E)
    (hy : y.opens = false) (h : r.blockPart y = .ok (e, s)) : Takes (4 + y.most) E e r s := by
  have hcost : y.cost r.tokens < 4 + y.most :=
    Nat.lt_of_le_of_lt (y.cost_le _) (Nat.lt_add_of_pos_left (Nat.zero_lt_succ 3))
  obtain ⟨t, ht, h⟩ := exists_of_bind_ok h
  split at h
  · exact takes_absent hclear hr ht hy hcost h
  · exact takes_absent hclear hr ht hy hcost h
  · exact takes_absent hclear hr ht hy hcost h
  · exact takes_nodeThen hclear hr hy h

/-- Before a first entry the token that begins the collection is passed. -/
theorem Takes.first (h : Takes b E e r.pass s) (hpeek : r.pass.peek = .ok t)
    (hfirst : ∀ u ∈ r.tokens.head?, u.isScalar = false) (hb : b ≤ 8 + b') : Takes b' E e r s := by
  cases hr : r.tokens with
  | nil =>
      have hnone : r.tokens.drop 1 = _ := tokens_of_peek hpeek
      rw [hr] at hnone
      cases hnone
  | cons u us =>
      have hpass : r.pass.tokens = us := congrArg (List.drop 1) hr
      exact h.pass (by rw [hr, hpass]) (hfirst u (by rw [hr]; rfl)) hb

@[inherit_doc Takes.first]
theorem Takes.of_first {first : Bool} (h : Takes b E e (if first then r.pass else r) s)
    (hpeek : (if first then r.pass else r).peek = .ok t)
    (hfirst : first = true → ∀ u ∈ r.tokens.head?, u.isScalar = false)
    (hb : if first then b ≤ 8 + b' else b ≤ b') : Takes b' E e r s := by
  cases first with
  | false => exact h.mono hb
  | true => exact h.first hpeek (hfirst rfl) hb

theorem expected_first (first : Bool) (r : Reader) :
    (if first then r.pass else r).expected = r.expected := by
  cases first <;> rfl

theorem Clear.first (h : r.Clear) (first : Bool) : (if first then r.pass else r).Clear := by
  cases first with
  | false => exact h
  | true => exact h.pass

theorem takes_blockKey {first : Bool} (hclear : r.Clear)
    (hr : r.expected = .blockKey first :: E)
    (hfirst : first = true → ∀ t ∈ r.tokens.head?, t.isScalar = false)
    (h : r.blockKey first = .ok (e, s)) :
    Takes ((Expectation.blockKey first).cost r.tokens) E e r s := by
  obtain ⟨t, ht, h⟩ := exists_of_bind_ok h
  have hq := (expected_first first r).trans hr
  have hclear := hclear.first first
  have htokens := tokens_of_peek ht
  -- whatever is passed first, the cost of the key is that before the token at hand
  have hstep : Takes ((Expectation.blockKey first).cost (if first then r.pass else r).tokens) E e
      (if first then r.pass else r) s := by
    split at h
    · rename_i hkey
      exact (takes_blockPart (r := Reader.pass _) hclear.pass hq rfl h).pass htokens
        (isScalar_of_lexeme hkey rfl) (Nat.le_add_right_of_le (by decide))
    · rename_i hvalue
      refine takes_absent hclear hq ht rfl ?_ h
      show 2 < if _ then 3 else 1
      rw [htokens, List.head?_cons, Option.map_some, hvalue, if_pos rfl]
      exact Nat.lt_succ_self 2
    · rename_i hend
      cases h
      exact takes_pass hq htokens (isScalar_of_lexeme hend rfl) rfl rfl
    · cases h
  refine hstep.of_first ht hfirst ?_
  cases first with
  | false => exact Nat.le_refl _
  | true => exact Nat.le_trans (cost_le _ _) (Nat.le_add_right_of_le (by decide))

theorem takes_blockValue (hclear : r.Clear) (hr : r.expected = .blockValue :: E)
    (h : r.blockValue = .ok (e, s)) : Takes 2 E e r s := by
  obtain ⟨t, ht, h⟩ := exists_of_bind_ok h
  have htokens := tokens_of_peek ht
  split at h
  · rename_i hvalue
    exact (takes_blockPart (r := r.pass) hclear.pass hr rfl h).pass htokens
      (isScalar_of_lexeme hvalue rfl) (by decide)
  · rename_i hvalue
    refine takes_absent hclear hr ht rfl ?_ h
    show (if _ then 3 else 1) < 2
    rw [htokens, List.head?_cons, Option.map_some, if_neg fun h => hvalue (Option.some.inj h)]
    exact Nat.lt_succ_self 1

theorem takes_blockEntry {first : Bool} (hclear : r.Clear)
    (hr : r.expected = .blockEntry first :: E)
    (hfirst : first = true → ∀ t ∈ r.tokens.head?, t.isScalar = false)
    (h : r.blockEntry first = .ok (e, s)) : Takes 1 E e r s := by
  obtain ⟨t, ht, h⟩ := exists_of_bind_ok h
  have hq := (expected_first first r).trans hr
  have hclear := hclear.first first
  have htokens := tokens_of_peek ht
  have hstep : Takes 1 E e (if first then r.pass else r) s := by
    split at h
    · rename_i hend
      cases h
      exact takes_pass hq htokens (isScalar_of_lexeme hend rfl) rfl rfl
    · rename_i hentry
      have hscalar := isScalar_of_lexeme hentry rfl
      obtain ⟨u, hu, h⟩ := exists_of_bind_ok h
      split at h
      case h_3 => exact takes_nodeThen_after hclear hq ht hscalar rfl (by decide) h
      all_goals exact takes_absent_after hclear hq ht hscalar (.inr hu) rfl h
    · cases h
  refine hstep.of_first ht hfirst ?_
  cases first <;> decide

theorem takes_indentlessEntry (hclear : r.Clear) (hr : r.expected = .indentlessEntry :: E)
    (h : r.indentlessEntry = .ok (e, s)) : Takes 1 E e r s := by
  obtain ⟨t, ht, h⟩ := exists_of_bind_ok h
  have htokens := tokens_of_peek ht
  split at h
  · rename_i hentry
    have hscalar := isScalar_of_lexeme hentry rfl
    obtain ⟨u, hu, h⟩ := exists_of_bind_ok h
    split at h
    case h_5 => exact takes_nodeThen_after hclear hr ht hscalar rfl (by decide) h
    all_goals exact takes_absent_after hclear hr ht hscalar (.inr hu) rfl h
  · cases h
    exact takes_complete hr rfl rfl (told_of_isBare rfl rfl) Nat.one_pos

/-! ### Flow collections -/

theorem takes_flowItem (hclear : r.Clear) (hr : r.expected = x :: E)
    (h : r.flowItem = .ok (e, s)) : Takes 5 E e r s := by
  obtain ⟨t, ht, h⟩ := exists_of_bind_ok h
  have htokens := tokens_of_peek ht
  split at h
  · rename_i hend
    cases h
    exact takes_pass hr htokens (isScalar_of_lexeme hend rfl) rfl rfl
  · rename_i hkey
    cases h
    have hpair : Takes 8 E (.mappingStart none t.mark) r.pass (r.pass.expect .pairKey) :=
      takes_expect (r := r.pass) hr rfl rfl (told_of_isBare rfl rfl)
        (fun h => absurd h Bool.false_ne_true) (Nat.lt_succ_self 7)
    exact hpair.pass htokens (isScalar_of_lexeme hkey rfl) (by decide)
  · exact takes_nodeThen hclear hr rfl h

theorem takes_flowPair (hclear : r.Clear) (hr : r.expected = x :: E)
    (h : r.flowPair = .ok (e, s)) : Takes 6 E e r s := by
  obtain ⟨t, ht, h⟩ := exists_of_bind_ok h
  have htokens := tokens_of_peek ht
  split at h
  · rename_i hkey
    have hscalar := isScalar_of_lexeme hkey rfl
    obtain ⟨u, hu, h⟩ := exists_of_bind_ok h
    split at h
    case h_4 => exact takes_nodeThen_after hclear hr ht hscalar rfl (by decide) h
    all_goals exact takes_absent_after hclear hr ht hscalar (.inr hu) rfl h
  · exact takes_absent hclear hr ht rfl (Nat.lt_of_le_of_lt (cost_le _ _) (by decide)) h
  · rename_i hend
    cases h
    exact takes_pass hr htokens (isScalar_of_lexeme hend rfl) rfl rfl
  · exact takes_nodeThen hclear hr rfl h

theorem takes_flowEntry {first : Bool} (hclear : r.Clear)
    (hr : r.expected = .flowEntry first :: E)
    (hfirst : first = true → ∀ t ∈ r.tokens.head?, t.isScalar = false)
    (h : r.flowEntry first = .ok (e, s)) : Takes 1 E e r s := by
  unfold flowEntry at h
  split at h
  · rename_i hf
    obtain ⟨t, ht, -⟩ := exists_of_bind_ok h
    exact (takes_flowItem (r := r.pass) hclear.pass hr h).first ht (hfirst hf) (by decide)
  · obtain ⟨t, ht, h⟩ := exists_of_bind_ok h
    have htokens := tokens_of_peek ht
    split at h
    · rename_i hend
      cases h
      exact takes_pass hr htokens (isScalar_of_lexeme hend rfl) rfl rfl
    · rename_i hentry
      exact (takes_flowItem (r := r.pass) hclear.pass hr h).pass htokens
        (isScalar_of_lexeme hentry rfl) (by decide)
    · cases h

theorem takes_flowKey {first : Bool} (hclear : r.Clear)
    (hr : r.expected = .flowKey first :: E)
    (hfirst : first = true → ∀ t ∈ r.tokens.head?, t.isScalar = false)
    (h : r.flowKey first = .ok (e, s)) : Takes 1 E e r s := by
  unfold flowKey at h
  split at h
  · rename_i hf
    obtain ⟨t, ht, -⟩ := exists_of_bind_ok h
    exact (takes_flowPair (r := r.pass) hclear.pass hr h).first ht (hfirst hf) (by decide)
  · obtain ⟨t, ht, h⟩ := exists_of_bind_ok h
    have htokens := tokens_of_peek ht
    split at h
    · rename_i hend
      cases h
      exact takes_pass hr htokens (isScalar_of_lexeme hend rfl) rfl rfl
    · rename_i hentry
      exact (takes_flowPair (r := r.pass) hclear.pass hr h).pass htokens
        (isScalar_of_lexeme hentry rfl) (by decide)
    · cases h

theorem takes_flowValue (hclear : r.Clear) (hr : r.expected = .flowValue :: E)
    (h : r.flowValue = .ok (e, s)) : Takes 2 E e r s := by
  obtain ⟨t, ht, h⟩ := exists_of_bind_ok h
  have htokens := tokens_of_peek ht
  split at h
  · rename_i hvalue
    have hscalar := isScalar_of_lexeme hvalue rfl
    obtain ⟨u, -, h⟩ := exists_of_bind_ok h
    split at h
    case h_3 => exact takes_nodeThen_after hclear hr ht hscalar rfl (by decide) h
    all_goals exact takes_absent_after hclear hr ht hscalar (.inl rfl) rfl h
  · exact takes_absent hclear hr ht rfl (Nat.lt_of_le_of_lt (cost_le _ _) (by decide)) h

theorem takes_flowNoValue (hclear : r.Clear) (hr : r.expected = .flowNoValue :: E)
    (h : r.flowNoValue = .ok (e, s)) : Takes 2 E e r s := by
  obtain ⟨t, ht, h⟩ := exists_of_bind_ok h
  exact takes_absent hclear hr ht rfl (Nat.lt_of_le_of_lt (cost_le _ _) (by decide)) h

theorem takes_pairKey (hclear : r.Clear) (hr : r.expected = .pairKey :: E)
    (h : r.pairKey = .ok (e, s)) : Takes 7 E e r s := by
  obtain ⟨t, ht, h⟩ := exists_of_bind_ok h
  split at h
  case h_4 => exact takes_nodeThen hclear hr rfl h
  all_goals
    rename_i hlexeme
    exact takes_absent_after hclear hr ht (isScalar_of_lexeme hlexeme rfl) (.inl rfl) rfl h

theorem takes_pairValue (hclear : r.Clear) (hr : r.expected = .pairValue :: E)
    (h : r.pairValue = .ok (e, s)) : Takes 3 E e r s := by
  obtain ⟨t, ht, h⟩ := exists_of_bind_ok h
  have htokens := tokens_of_peek ht
  split at h
  · rename_i hvalue
    have hscalar := isScalar_of_lexeme hvalue rfl
    obtain ⟨u, hu, h⟩ := exists_of_bind_ok h
    split at h
    case h_3 => exact takes_nodeThen_after hclear hr ht hscalar rfl (by decide) h
    all_goals exact takes_absent_after hclear hr ht hscalar (.inr hu) rfl h
  · exact takes_absent hclear hr ht rfl (Nat.lt_of_le_of_lt (cost_le _ _) (by decide)) h

theorem takes_pairEnd (hr : r.expected = .pairEnd :: E) (h : r.pairEnd = .ok (e, s)) :
    Takes 2 E e r s := by
  cases h
  exact takes_expect hr rfl rfl (told_of_isBare rfl rfl) (fun h => absurd h Bool.false_ne_true)
    (Nat.lt_succ_self 1)

theorem takes_documentContent (hclear : r.Clear) (hr : r.expected = .content :: E)
    (h : r.documentContent = .ok (e, s)) : Takes 4 E e r s := by
  obtain ⟨t, ht, h⟩ := exists_of_bind_ok h
  split at h
  case h_6 => exact takes_node hclear hr h
  all_goals
    have h : Except.ok (Event.absent r.omitted t.mark, r.complete) = _ := h
    rw [hclear.omitted] at h
    cases h
    exact takes_complete hr rfl rfl (told_absent_before ht none) (Nat.zero_lt_succ 3)

/-! ### Steps -/

/-- **Inside a document every step takes the token of its event**, and pays for what is expected. -/
theorem takes_step {o : Option Event} (hclear : r.Clear) (hr : r.expected = x :: E)
    (hx : x.inside = true) (hready : Ready r.tokens (x :: E)) (h : r.step x = .ok (o, s)) :
    ∃ e, o = some e ∧ Takes (x.cost r.tokens) E e r s := by
  have hfirst : x.opens = true → ∀ t ∈ r.tokens.head?, t.isScalar = false := hready.first x rfl
  cases x with
  | implicitDocument | document | documentEnd => cases hx
  | content => exact (exists_of_some' h).imp fun e => .imp_right (takes_documentContent hclear hr)
  | blockNode => exact (exists_of_some' h).imp fun e => .imp_right (takes_node hclear hr)
  | blockKey first =>
      refine (exists_of_some' h).imp fun e => .imp_right (takes_blockKey hclear hr fun hf => ?_)
      exact hfirst (by rw [hf]; rfl)
  | blockValue => exact (exists_of_some' h).imp fun e => .imp_right (takes_blockValue hclear hr)
  | blockEntry first =>
      refine (exists_of_some' h).imp fun e => .imp_right (takes_blockEntry hclear hr fun hf => ?_)
      exact hfirst (by rw [hf]; rfl)
  | indentlessEntry =>
      exact (exists_of_some' h).imp fun e => .imp_right (takes_indentlessEntry hclear hr)
  | flowEntry first =>
      refine (exists_of_some' h).imp fun e => .imp_right (takes_flowEntry hclear hr fun hf => ?_)
      exact hfirst (by rw [hf]; rfl)
  | flowKey first =>
      refine (exists_of_some' h).imp fun e => .imp_right (takes_flowKey hclear hr fun hf => ?_)
      exact hfirst (by rw [hf]; rfl)
  | flowValue => exact (exists_of_some' h).imp fun e => .imp_right (takes_flowValue hclear hr)
  | flowNoValue => exact (exists_of_some' h).imp fun e => .imp_right (takes_flowNoValue hclear hr)
  | pairKey => exact (exists_of_some' h).imp fun e => .imp_right (takes_pairKey hclear hr)
  | pairValue => exact (exists_of_some' h).imp fun e => .imp_right (takes_pairValue hclear hr)
  | pairEnd => exact (exists_of_some' h).imp fun e => .imp_right (takes_pairEnd hr)

end Reader

end YamlDelta.Markup
