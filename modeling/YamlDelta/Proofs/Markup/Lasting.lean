/-
Which tokens can still change.

A token is put in front of others only where a candidate for a key stands.  So what lies before all
candidates lasts: it is there for good, in its place, whatever the rest of the text is
(`Scan.lasts_run`).

Whatever the scanner does is made of a few changes to its tokens and candidates, and every fetch is
a row of these (`changes_fetch`), so that what each change keeps holds of a whole scan
(`Scan.exists_of_run`).  At the beginning of a text the candidate matters too: if its first token
may become a key, then in the end either the tokens that make it one stand right before it, or
nothing does (`Scan.exists_lead_of_run`).
-/
import Mathlib.Logic.Relation
import YamlDelta.Proofs.Markup.Standing

namespace YamlDelta.Markup

/-- What is put in front of a token to make it a key: a mark, and perhaps the beginning of a
mapping before that. -/
inductive KeyLead : List Token → Prop
  | key {m : Mark} : KeyLead [⟨m, .key⟩]
  | flowMapping {m m' : Mark} : KeyLead [⟨m, .flowMappingStart⟩, ⟨m', .key⟩]
  | blockMapping {m m' : Mark} : KeyLead [⟨m, .blockMappingStart⟩, ⟨m', .key⟩]

/-- The tokens of a scanner and its candidates for keys. -/
abbrev Stock := List Token × List KeyCandidate

/-- One thing that a scanner does to its stock. -/
inductive Change : Stock → Stock → Prop
  | push (T : List Token) (ks : List KeyCandidate) (t : Token) : Change (T, ks) (T ++ [t], ks)
  /-- The innermost candidate is replaced by the next token, or by none. -/
  | set (T : List Token) (ks : List KeyCandidate) (k : KeyCandidate)
      (hk : k.possible = true → k.number = T.length) : Change (T, ks) (T, k :: ks.drop 1)
  | withdraw (T : List Token) (ks : List KeyCandidate) (p : KeyCandidate → Bool) :
      Change (T, ks) (T, ks.map fun k => if p k then k.withdraw else k)
  | enter (T : List Token) (ks : List KeyCandidate) : Change (T, ks) (T, .none :: ks)
  | leave (T : List Token) (ks : List KeyCandidate) : Change (T, ks) (T, ks.drop 1)
  /-- The innermost candidate becomes a key. -/
  | key (xs ys : List Token) (ks : List KeyCandidate) (k : KeyCandidate) {lead : List Token}
      (hlead : KeyLead lead) (hk : k.number = xs.length) (hpossible : k.possible = true) :
      Change (xs ++ ys, k :: ks) (xs ++ (lead ++ ys), k.withdraw :: ks)

abbrev Changes : Stock → Stock → Prop :=
  Relation.ReflTransGen Change

namespace Scanner

def stock (s : Scanner) : Stock :=
  (s.tokens.toList, s.keys)

variable {s s' : Scanner}

/-- Most of what a scanner does leaves its stock alone. -/
theorem changes_of_eq {a b : Stock} (h : b = a) : Changes a b := by
  rw [h]

/-! ### What single steps do -/

theorem changes_push (s : Scanner) (m : Mark) (l : Lexeme) :
    Changes s.stock (s.push m l).stock := by
  have hpush : (s.push m l).stock = (s.tokens.toList ++ [⟨m, l⟩], s.keys) := by
    rw [stock, push, Array.toList_push]
  rw [hpush]
  exact .single (.push _ _ _)

theorem changes_setKey (s : Scanner) {k : KeyCandidate}
    (hk : k.possible = true → k.number = s.tokens.size) : Changes s.stock (s.setKey k).stock :=
  .single (.set _ _ k fun h => (hk h).trans Array.length_toList.symm)

theorem changes_saveKey (s : Scanner) : Changes s.stock s.saveKey.stock := by
  unfold saveKey
  split
  · exact changes_setKey s fun _ => rfl
  · exact .refl

theorem changes_dropKey (h : s.dropKey = .ok s') : Changes s.stock s'.stock := by
  unfold dropKey at h
  split at h
  · cases h
  · cases h
    exact changes_setKey s nofun

theorem changes_dropStaleKeys (h : s.dropStaleKeys = .ok s') : Changes s.stock s'.stock := by
  unfold dropStaleKeys at h
  split at h
  · cases h
    exact .refl
  · split at h
    · cases h
    · cases h
      exact .single (.withdraw _ _ _)

theorem changes_closeTo (column : Int) (is : List Indent) (s : Scanner) :
    Changes s.stock (closeTo column s is).stock := by
  induction is generalizing s with
  | nil => exact .refl
  | cons i is ih =>
      rw [closeTo]
      split
      · refine .trans ?_ (ih _)
        cases i.isBlock with
        | false => exact .refl
        | true => exact changes_push _ _ _
      · exact .refl

theorem changes_closeBlocks (s : Scanner) (column : Int) :
    Changes s.stock (s.closeBlocks column).stock := by
  unfold closeBlocks
  split
  · exact .refl
  · exact changes_closeTo _ _ _

theorem changes_openFlow (h : s.openFlow = .ok s') : Changes s.stock s'.stock := by
  unfold openFlow at h
  split at h
  · cases h
    exact .single (.enter _ _)
  · cases h

theorem changes_closeFlow (s : Scanner) : Changes s.stock s.closeFlow.stock := by
  unfold closeFlow
  split
  · exact .single (.leave _ _)
  · exact .refl

theorem changes_closePair (s : Scanner) : Changes s.stock s.closePair.stock := by
  unfold closePair
  split
  · exact changes_push { s with inPair := false, inMapping := false } _ _
  · exact .refl

theorem changes_endBlocks (h : s.endBlocks = .ok s') : Changes s.stock s'.stock := by
  obtain ⟨t, ht, h⟩ := exists_of_bind_ok h
  cases h
  have hdrop : Changes (s.closeBlocks (-1)).stock t.stock := changes_dropKey ht
  exact (changes_closeBlocks s (-1)).trans hdrop

theorem stock_openProvisional (s : Scanner) : s.openProvisional.stock = s.stock := by
  unfold openProvisional
  split
  · split <;> rfl
  · rfl

theorem stock_dropProvisional (is : List Indent) (s : Scanner) :
    (dropProvisional s is).stock = s.stock := by
  induction is generalizing s with
  | nil => rfl
  | cons i is ih =>
      rw [dropProvisional]
      split
      · rfl
      · exact ih _

theorem stock_skipAfterKey (fuel : Nat) (found : Bool) (s : Scanner) :
    (skipAfterKey fuel found s).2.stock = s.stock := by
  induction fuel generalizing found s with
  | zero => rfl
  | succ fuel ih =>
      rw [skipAfterKey]
      split
      · exact ih _ _
      · split
        · rw [ih, passBreak_eq]
          rfl
        · split
          · exact ih _ _
          · rfl

theorem stock_skipInline {tabs : Bool} {found : Cursor.Blanks}
    (h : s.skipInline tabs = .ok (found, s')) : s'.stock = s.stock := by
  obtain ⟨⟨found', c⟩, -, h⟩ := exists_of_bind_ok h
  cases h
  rfl

theorem stock_skipToToken (h : s.skipToToken = .ok s') : s'.stock = s.stock := by
  rw [(skipGaps_frame h).2]
  rfl

theorem stock_skipAfterValue (h : s.skipAfterValue = .ok s') :
    s'.stock = s.stock ∧ s'.inPair = s.inPair ∧ s'.inFlow = s.inFlow := by
  unfold skipAfterValue at h
  dsimp only at h
  split at h
  · obtain ⟨⟨found, t⟩, ht, h⟩ := exists_of_bind_ok h
    obtain ⟨⟨found', c⟩, -, ht⟩ := exists_of_bind_ok ht
    cases ht
    dsimp only at h
    split at h
    · cases h
    · cases h
      exact ⟨rfl, rfl, rfl⟩
  · cases h
    exact ⟨rfl, rfl, rfl⟩

theorem stock_allowKeyInBlock (s : Scanner) : s.allowKeyInBlock.stock = s.stock := by
  unfold allowKeyInBlock
  split <;> rfl

/-- Where a block is opened, its first token is inserted, or none. -/
theorem openBlock_cases (s : Scanner) (column number : Nat) (l : Lexeme) (m : Mark) :
    (s.openBlock column number l m).stock = s.stock ∨
      s.inFlow = false ∧
        (s.openBlock column number l m).stock = (s.insert number m l).stock := by
  unfold openBlock
  split
  · exact .inl rfl
  · rename_i hflow
    rw [Bool.not_eq_true] at hflow
    repeat' split
    all_goals
      dsimp only
      split
      · exact .inr ⟨hflow, rfl⟩
      · exact .inl rfl

theorem stock_insert {xs ys : List Token} (h : s.tokens.toList = xs ++ ys) (m : Mark)
    (l : Lexeme) : (s.insert xs.length m l).stock = (xs ++ ⟨m, l⟩ :: ys, s.keys) :=
  Prod.ext (tokens_insert h m l) rfl

/-- Behind the last token an insertion is a push. -/
theorem stock_insert_size (s : Scanner) (m : Mark) (l : Lexeme) :
    (s.insert s.tokens.size m l).stock = (s.push m l).stock := by
  have h := stock_insert (List.append_nil s.tokens.toList).symm m l
  rw [Array.length_toList] at h
  rw [h, stock, push, Array.toList_push]

theorem changes_openBlock (s : Scanner) (column : Nat) (l : Lexeme) (m : Mark) :
    Changes s.stock (s.openBlock column s.tokens.size l m).stock := by
  rcases openBlock_cases s column s.tokens.size l m with h | ⟨-, h⟩
  · rw [h]
  · rw [h, stock_insert_size]
    exact changes_push _ _ _

/-! ### Keys -/

theorem stock_setKey (s : Scanner) (k : KeyCandidate) :
    (s.setKey k).disallowKey.stock = (s.tokens.toList, k :: s.keys.drop 1) := rfl

/-- An insertion beyond the last token is none. -/
theorem stock_insert_of_lt {number : Nat} (h : s.tokens.size < number) (m : Mark) (l : Lexeme) :
    (s.insert number m l).stock = s.stock := by
  rw [insert, Array.insertIdxIfInBounds, dif_neg (Nat.not_le_of_lt h)]

theorem size_of_stock {t : Scanner} (h : t.stock = s.stock) : t.tokens.size = s.tokens.size := by
  rw [← Array.length_toList, ← Array.length_toList]
  exact congrArg (·.1.length) h

/-- The scanner when a candidate has become a key, and is still a candidate. -/
def withLead (s : Scanner) (k : KeyCandidate) (colon : Mark) : Scanner :=
  let t := s.insert k.number k.mark .key
  let t := if s.inPair then t.insert k.number t.mark .flowMappingStart else t
  t.openBlock k.mark.column k.number .blockMappingStart colon

theorem eq_of_makeKey {k : KeyCandidate} {colon : Mark} (h : s.makeKey k colon = .ok s') :
    s' = ((s.withLead k colon).openProvisional.setKey k.withdraw).disallowKey := by
  unfold makeKey at h
  dsimp only at h
  split at h
  · cases h
  · exact (Except.ok.inj h).symm

/-- Beyond the last token nothing is inserted. -/
theorem stock_withLead_of_lt {k : KeyCandidate} (hout : s.tokens.size < k.number) (colon : Mark) :
    (s.withLead k colon).stock = s.stock := by
  have hkey : (s.insert k.number k.mark .key).stock = s.stock := stock_insert_of_lt hout _ _
  unfold withLead
  dsimp only
  generalize hu : (if s.inPair = true then _ else s.insert k.number k.mark .key) = u
  have hpair : u.stock = s.stock := by
    rw [← hu]
    split
    · rw [stock_insert_of_lt (by rwa [size_of_stock hkey]), hkey]
    · exact hkey
  rcases openBlock_cases u k.mark.column k.number .blockMappingStart colon with h | ⟨-, h⟩
  · rw [h, hpair]
  · rw [h, stock_insert_of_lt (by rwa [size_of_stock hpair]), hpair]

/-- What makes a candidate a key comes right before it. -/
theorem exists_stock_withLead {k : KeyCandidate} {xs ys : List Token}
    (htokens : s.tokens.toList = xs ++ ys) (hnumber : k.number = xs.length)
    (hpair : s.inPair = true → s.inFlow = true) (colon : Mark) :
    ∃ lead, KeyLead lead ∧ (s.withLead k colon).stock = (xs ++ (lead ++ ys), s.keys) := by
  have hkey : (s.insert k.number k.mark .key).stock = (xs ++ ⟨k.mark, .key⟩ :: ys, s.keys) := by
    rw [hnumber, stock_insert htokens]
  have hflow : (s.insert k.number k.mark .key).inFlow = s.inFlow := rfl
  unfold withLead
  dsimp only
  generalize s.insert k.number k.mark .key = t at hkey hflow
  have hinsert : ∀ m l, (t.insert k.number m l).stock =
      (xs ++ ⟨m, l⟩ :: ⟨k.mark, .key⟩ :: ys, s.keys) := fun m l => by
    rw [hnumber, stock_insert (congrArg Prod.fst hkey)]
    exact congrArg (_, ·) (congrArg Prod.snd hkey :)
  split
  · rename_i hp
    refine ⟨[⟨t.mark, .flowMappingStart⟩, ⟨k.mark, .key⟩], .flowMapping, ?_⟩
    rcases openBlock_cases (t.insert k.number t.mark .flowMappingStart) k.mark.column k.number
      .blockMappingStart colon with h | ⟨hblock, -⟩
    · rw [h]
      exact hinsert _ _
    · -- a pair is inside of a flow collection, where no block is opened
      exact absurd (hblock.symm.trans (hflow.trans (hpair hp))) Bool.false_ne_true
  · rcases openBlock_cases t k.mark.column k.number .blockMappingStart colon with h | ⟨-, h⟩
    · exact ⟨[⟨k.mark, .key⟩], .key, h.trans hkey⟩
    · exact ⟨[⟨colon, .blockMappingStart⟩, ⟨k.mark, .key⟩], .blockMapping, h.trans (hinsert _ _)⟩

/-- The tokens that make a candidate a key come right before it. -/
theorem changes_makeKey {k : KeyCandidate} {ks : List KeyCandidate} {colon : Mark}
    (hkeys : s.keys = k :: ks) (hpossible : k.possible = true)
    (hpair : s.inPair = true → s.inFlow = true) (h : s.makeKey k colon = .ok s') :
    Changes s.stock s'.stock := by
  rw [eq_of_makeKey h]
  rcases Nat.lt_or_ge s.tokens.size k.number with hout | hin
  · rw [← stock_withLead_of_lt hout colon, ← stock_openProvisional]
    exact changes_setKey _ nofun
  · have hnumber : k.number = (s.tokens.toList.take k.number).length := by
      rw [List.length_take, Array.length_toList, Nat.min_eq_left hin]
    have htokens := (List.take_append_drop k.number s.tokens.toList).symm
    obtain ⟨lead, hlead, hstock⟩ := exists_stock_withLead htokens hnumber hpair colon
    rw [← stock_openProvisional, hkeys] at hstock
    rw [stock_setKey, show Array.toList _ = _ from congrArg Prod.fst hstock,
      show Scanner.keys _ = _ from congrArg Prod.snd hstock,
      show s.stock = (_, k :: ks) from Prod.ext htokens hkeys]
    exact .single (.key _ _ ks k hlead hnumber hpossible)

/-! ### Tokens -/

theorem changes_fetchStreamEnd (h : s.fetchStreamEnd = .ok s') : Changes s.stock s'.stock := by
  unfold fetchStreamEnd at h
  dsimp only at h
  split at h
  · cases h
  · obtain ⟨t, ht, h⟩ := exists_of_bind_ok h
    cases h
    have hwithdraw : Changes s.stock (s.tokens.toList, s.keys.map KeyCandidate.withdraw) :=
      .single (.withdraw _ _ fun _ => true)
    exact (hwithdraw.trans (changes_endBlocks ht)).trans (changes_push _ _ _)

theorem changes_fetchDirective (h : s.fetchDirective = .ok s') : Changes s.stock s'.stock := by
  obtain ⟨t, ht, h⟩ := exists_of_bind_ok h
  obtain ⟨⟨l, c⟩, -, h⟩ := exists_of_bind_ok h
  cases h
  exact (changes_endBlocks ht).trans (changes_push (t.withCursor c) _ _)

theorem changes_fetchMarker {l : Lexeme} (h : s.fetchMarker l = .ok s') :
    Changes s.stock s'.stock := by
  obtain ⟨t, ht, h⟩ := exists_of_bind_ok h
  cases h
  exact (changes_endBlocks ht).trans (changes_push (t.withCursor _) _ _)

theorem changes_fetchDocumentEnd (h : s.fetchDocumentEnd = .ok s') : Changes s.stock s'.stock := by
  obtain ⟨t, ht, h⟩ := exists_of_bind_ok h
  obtain ⟨⟨found, u⟩, hu, h⟩ := exists_of_bind_ok h
  dsimp only at h
  split at h
  · cases h
    exact (changes_fetchMarker ht).trans (changes_of_eq (stock_skipInline hu))
  · cases h

theorem changes_fetchFlowStart {l : Lexeme} (h : s.fetchFlowStart l = .ok s') :
    Changes s.stock s'.stock := by
  obtain ⟨t, ht, h⟩ := exists_of_bind_ok h
  obtain ⟨⟨found, u⟩, hu, h⟩ := exists_of_bind_ok h
  cases h
  have hstock : u.stock = t.stock := by
    rw [stock_skipInline hu]
    split <;> rfl
  refine (changes_saveKey s).trans ?_
  refine (changes_of_eq (stock_openProvisional _)).trans ?_
  exact ((changes_openFlow ht).trans (changes_of_eq hstock)).trans (changes_push u _ _)

theorem changes_fetchFlowEnd {l : Lexeme} (h : s.fetchFlowEnd l = .ok s') :
    Changes s.stock s'.stock := by
  obtain ⟨t, ht, h⟩ := exists_of_bind_ok h
  obtain ⟨⟨found, u⟩, hu, h⟩ := exists_of_bind_ok h
  cases h
  refine ((changes_dropKey ht).trans (changes_closeFlow t)).trans ?_
  refine (changes_closePair t.closeFlow.disallowKey).trans ?_
  refine (changes_of_eq (stock_skipInline hu)).trans ?_
  split
  · exact changes_push { u with valueAt := u.mark.index } _ _
  · exact changes_push u _ _

theorem changes_fetchFlowEntry (h : s.fetchFlowEntry = .ok s') : Changes s.stock s'.stock := by
  obtain ⟨t, ht, h⟩ := exists_of_bind_ok h
  obtain ⟨⟨found, u⟩, hu, h⟩ := exists_of_bind_ok h
  cases h
  refine ((changes_dropKey ht).trans (changes_closePair t.allowKey)).trans ?_
  exact (changes_of_eq (stock_skipInline hu)).trans (changes_push u _ _)

theorem changes_fetchBlockEntry (h : s.fetchBlockEntry = .ok s') : Changes s.stock s'.stock := by
  unfold fetchBlockEntry at h
  split at h
  · cases h
  · split at h
    · cases h
    · split at h
      · cases h
      · obtain ⟨⟨found, t⟩, ht, h⟩ := exists_of_bind_ok h
        dsimp only at h
        split at h
        · cases h
        · obtain ⟨⟨found', u⟩, hu, h⟩ := exists_of_bind_ok h
          obtain ⟨v, hv, h⟩ := exists_of_bind_ok h
          cases h
          refine (changes_openBlock (s.withCursor (s.cursor.advance 1)) s.mark.column
            .blockSequenceStart s.mark).trans ?_
          refine (changes_of_eq (stock_skipInline ht)).trans ?_
          refine (changes_of_eq (stock_skipInline hu)).trans ?_
          refine .trans ?_ ((changes_dropKey hv).trans (changes_push v.allowKey _ _))
          split
          · exact changes_of_eq (stock_openProvisional _)
          · exact changes_of_eq rfl

theorem changes_fetchKey (h : s.fetchKey = .ok s') : Changes s.stock s'.stock := by
  unfold fetchKey at h
  dsimp only at h
  split at h
  · cases h
  · obtain ⟨t, ht, h⟩ := exists_of_bind_ok h
    split at h
    · cases h
    · split at h
      · cases h
      · cases h
        have hopen : Changes s.stock t.stock := by
          refine .trans ?_ (changes_dropKey ht)
          split
          · exact changes_of_eq rfl
          · exact changes_openBlock _ _ _ _
        have hskip := stock_skipAfterKey (t.cursor.advance 1).rest.length.succ false
          (t.allowKeyInBlock.withCursor (t.cursor.advance 1))
        refine (hopen.trans (changes_of_eq (stock_allowKeyInBlock t))).trans ?_
        exact (changes_of_eq hskip).trans (changes_push _ _ _)

theorem changes_makeValue {colon : Mark} (h : s.makeValue colon = .ok s') :
    Changes s.stock s'.stock := by
  unfold makeValue at h
  generalize ht : (if s.inPair = true then s.push s.mark .flowMappingStart else s) = t at h
  have hpush : Changes s.stock t.stock := by
    rw [← ht]
    split
    · exact changes_push _ _ _
    · exact changes_of_eq rfl
  dsimp only at h
  split at h
  · cases h
  · cases h
    refine (hpush.trans (changes_openBlock t colon.column .blockMappingStart colon)).trans ?_
    exact (changes_of_eq (stock_openProvisional _)).trans
      (changes_of_eq (stock_allowKeyInBlock _))

theorem keys_of_possible (h : s.key.possible = true) : ∃ ks, s.keys = s.key :: ks := by
  unfold key at h ⊢
  cases hkeys : s.keys with
  | nil =>
      rw [hkeys] at h
      cases h
  | cons k ks => exact ⟨ks, rfl⟩

theorem changes_fetchValue (h : s.fetchValue = .ok s') : Changes s.stock s'.stock := by
  obtain ⟨t, ht, h⟩ := exists_of_bind_ok h
  obtain ⟨hstock, hinPair, hinFlow⟩ := stock_skipAfterValue ht
  refine (changes_of_eq hstock :).trans ?_
  split at h
  · rename_i hpossible
    obtain ⟨u, hu, h⟩ := exists_of_bind_ok h
    cases h
    obtain ⟨ks, hks⟩ := keys_of_possible hpossible
    have hpair : t.inPair = true → t.inFlow = true := by
      rw [hinPair, hinFlow]
      exact fun h => (Bool.and_eq_true_iff.mp h).1
    exact (changes_makeKey ((congrArg Prod.snd hstock :).trans hks) hpossible hpair hu).trans
      (changes_push u _ _)
  · obtain ⟨u, hu, h⟩ := exists_of_bind_ok h
    cases h
    exact (changes_makeValue hu).trans (changes_push u _ _)

theorem changes_fetchAnchor {l : String → Lexeme} (h : s.fetchAnchor l = .ok s') :
    Changes s.stock s'.stock := by
  obtain ⟨⟨name, c⟩, -, h⟩ := exists_of_bind_ok h
  cases h
  exact (changes_saveKey s).trans (changes_push (s.saveKey.disallowKey.withCursor c) _ _)

theorem changes_fetchTag (h : s.fetchTag = .ok s') : Changes s.stock s'.stock := by
  obtain ⟨⟨l, c⟩, -, h⟩ := exists_of_bind_ok h
  cases h
  exact (changes_saveKey s).trans (changes_push (s.saveKey.disallowKey.withCursor c) _ _)

theorem stock_closeProvisional (s : Scanner) : s.closeProvisional.stock = s.stock :=
  stock_dropProvisional _ _

theorem changes_fetchBlockScalar {literal : Bool} (h : s.fetchBlockScalar literal = .ok s') :
    Changes s.stock s'.stock := by
  obtain ⟨⟨m, text, c⟩, -, h⟩ := exists_of_bind_ok h
  cases h
  refine (changes_saveKey s).trans
    ((changes_of_eq (stock_closeProvisional s.saveKey.allowKey)).trans ?_)
  exact changes_push (s.saveKey.allowKey.closeProvisional.withCursor c) _ _

theorem changes_fetchQuoted {single : Bool} (h : s.fetchQuoted single = .ok s') :
    Changes s.stock s'.stock := by
  obtain ⟨⟨text, c⟩, -, h⟩ := exists_of_bind_ok h
  obtain ⟨t, ht, h⟩ := exists_of_bind_ok h
  cases h
  refine (changes_saveKey s).trans ((changes_of_eq (stock_skipToToken ht)).trans ?_)
  exact changes_push { t with valueAt := t.mark.index } _ _

theorem changes_fetchPlain (h : s.fetchPlain = .ok s') : Changes s.stock s'.stock := by
  obtain ⟨⟨text, c⟩, -, h⟩ := exists_of_bind_ok h
  cases h
  refine (changes_saveKey s).trans
    ((changes_of_eq (stock_closeProvisional s.saveKey.disallowKey)).trans ?_)
  split
  · exact changes_push (s.saveKey.disallowKey.closeProvisional.withCursor c).allowKey _ _
  · exact changes_push (s.saveKey.disallowKey.closeProvisional.withCursor c) _ _

theorem changes_fetchLexeme (h : s.fetchLexeme = .ok s') : Changes s.stock s'.stock := by
  unfold fetchLexeme at h
  dsimp only at h
  split at h
  · exact changes_fetchFlowStart h
  · exact changes_fetchFlowStart h
  · exact changes_fetchFlowEnd h
  · exact changes_fetchFlowEnd h
  · exact changes_fetchFlowEntry h
  · split at h
    · exact changes_fetchBlockEntry h
    · exact changes_fetchPlain h
  · split at h
    · exact changes_fetchKey h
    · exact changes_fetchPlain h
  · split at h
    · exact changes_fetchValue h
    · exact changes_fetchPlain h
  · exact changes_fetchAnchor h
  · exact changes_fetchAnchor h
  · exact changes_fetchTag h
  · split at h
    · exact changes_fetchPlain h
    · exact changes_fetchBlockScalar h
  · split at h
    · exact changes_fetchPlain h
    · exact changes_fetchBlockScalar h
  · exact changes_fetchQuoted h
  · exact changes_fetchQuoted h
  · cases h
  · cases h
  · cases h
  · exact changes_fetchPlain h

theorem changes_dispatch (h : s.dispatch = .ok s') : Changes s.stock s'.stock := by
  unfold dispatch at h
  split at h
  · exact changes_fetchStreamEnd h
  · split at h
    · exact changes_fetchDirective h
    · split at h
      · exact changes_fetchMarker h
      · split at h
        · exact changes_fetchDocumentEnd h
        · split at h
          · cases h
          · exact changes_fetchLexeme h

theorem changes_settle (h : s.settle = .ok s') : Changes s.stock s'.stock := by
  obtain ⟨t, u, ht, -, -, hu, -, rfl⟩ := exists_of_settle h
  refine (changes_of_eq (stock_skipToToken ht)).trans ((changes_dropStaleKeys hu).trans ?_)
  exact changes_closeBlocks u _

/-- **Every fetch is a row of changes.** -/
theorem changes_fetch (h : s.fetch = .ok s') : Changes s.stock s'.stock := by
  rw [fetch_eq] at h
  obtain ⟨t, ht, h⟩ := exists_of_bind_ok h
  exact (changes_settle ht).trans (changes_dispatch h)

end Scanner

/-! ### What every change keeps -/

variable {p q : Stock} {front lead : List Token} {a x : Token}

theorem KeyCandidate.number_withdrawIf (b : Bool) (k : KeyCandidate) :
    (if b then k.withdraw else k).number = k.number := by
  cases b <;> rfl

theorem KeyCandidate.possible_of_withdrawIf {b : Bool} {k : KeyCandidate}
    (h : (if b then k.withdraw else k).possible = true) : k.possible = true := by
  cases b with
  | false => exact h
  | true => cases h

/-- The tokens begin like this, and all candidates come after that. -/
structure Lasts (front : List Token) (p : Stock) : Prop where
  leads : front <+: p.1
  candidates : ∀ k ∈ p.2, k.possible = true → front.length ≤ k.number

/-- What lies before all candidates is not changed. -/
theorem Lasts.change (h : Lasts front p) (hpq : Change p q) : Lasts front q := by
  obtain ⟨hleads, hks⟩ := h
  cases hpq with
  | push T ks t => exact ⟨hleads.trans (List.prefix_append _ _), hks⟩
  | set T ks k hk =>
      refine ⟨hleads, List.forall_mem_cons.mpr ⟨fun h => ?_, fun j hj => ?_⟩⟩
      · rw [hk h]
        exact hleads.length_le
      · exact hks j (List.mem_of_mem_drop hj)
  | withdraw T ks p =>
      refine ⟨hleads, List.forall_mem_map.mpr fun k hk h => ?_⟩
      rw [k.number_withdrawIf]
      exact hks k hk (KeyCandidate.possible_of_withdrawIf h)
  | enter T ks => exact ⟨hleads, List.forall_mem_cons.mpr ⟨nofun, hks⟩⟩
  | leave T ks => exact ⟨hleads, fun k hk => hks k (List.mem_of_mem_drop hk)⟩
  | key xs ys ks k hlead hk hpossible =>
      rw [List.forall_mem_cons] at hks
      refine ⟨?_, List.forall_mem_cons.mpr ⟨nofun, hks.2⟩⟩
      have hle : front.length ≤ xs.length := hk ▸ hks.1 hpossible
      exact (List.prefix_of_prefix_length_le hleads (List.prefix_append xs ys) hle).trans
        (List.prefix_append _ _)

theorem Lasts.changes (h : Lasts front p) (hpq : Changes p q) : Lasts front q := by
  induction hpq with
  | refl => exact h
  | tail _ hstep ih => exact ih.change hstep

/-- The second token may still become a key, at the outermost level; inside of collections only
later ones may. -/
structure Undecided (a x : Token) (p : Stock) : Prop where
  leads : [a, x] <+: p.1
  candidates : ∃ ks k, p.2 = ks ++ [k] ∧ k.number = 1 ∧
    ∀ j ∈ ks, j.possible = true → 2 ≤ j.number

/-- It has been decided whether the second token is a key. -/
def Decided (a x : Token) (p : Stock) : Prop :=
  ∃ lead, (lead = [] ∨ KeyLead lead) ∧ Lasts (a :: (lead ++ [x])) p

theorem Undecided.change (h : Undecided a x p) (hpq : Change p q) :
    Undecided a x q ∨ Decided a x q := by
  obtain ⟨hleads, inner, outer, hp, houter, hinner⟩ := h
  have hlength := hleads.length_le
  cases hpq with
  | push T ks t =>
      exact .inl ⟨hleads.trans (List.prefix_append _ _), inner, outer, hp, houter, hinner⟩
  | set T ks k hk =>
      obtain rfl : ks = inner ++ [outer] := hp
      have hnumber : k.possible = true → 2 ≤ k.number := fun h => hk h ▸ hlength
      cases inner with
      | nil => exact .inr ⟨[], .inl rfl, hleads, List.forall_mem_singleton.mpr hnumber⟩
      | cons j inner =>
          rw [List.forall_mem_cons] at hinner
          exact .inl ⟨hleads, k :: inner, outer, rfl, houter,
            List.forall_mem_cons.mpr ⟨hnumber, hinner.2⟩⟩
  | withdraw T ks p =>
      obtain rfl : ks = inner ++ [outer] := hp
      refine .inl ⟨hleads, _, _, List.map_append, ?_, List.forall_mem_map.mpr fun k hk h => ?_⟩
      · rw [KeyCandidate.number_withdrawIf, houter]
      · rw [KeyCandidate.number_withdrawIf]
        exact hinner k hk (KeyCandidate.possible_of_withdrawIf h)
  | enter T ks =>
      obtain rfl : ks = inner ++ [outer] := hp
      exact .inl ⟨hleads, _ :: inner, outer, rfl, houter,
        List.forall_mem_cons.mpr ⟨nofun, hinner⟩⟩
  | leave T ks =>
      obtain rfl : ks = inner ++ [outer] := hp
      cases inner with
      | nil => exact .inr ⟨[], .inl rfl, hleads, nofun⟩
      | cons j inner =>
          exact .inl ⟨hleads, inner, outer, rfl, houter, (List.forall_mem_cons.mp hinner).2⟩
  | key xs ys ks k hlead hk hpossible =>
      cases inner with
      | nil =>
          -- the second token becomes a key
          obtain ⟨rfl, rfl⟩ := List.cons.inj hp
          obtain ⟨b, rfl⟩ := List.length_eq_one_iff.mp (hk.symm.trans houter)
          obtain ⟨rfl, hx⟩ := List.cons_prefix_cons.mp hleads
          refine .inr ⟨_, .inr hlead, ?_, List.forall_mem_singleton.mpr nofun⟩
          exact List.cons_prefix_cons.mpr ⟨rfl, (List.prefix_append_right_inj _).mpr hx⟩
      | cons j inner =>
          obtain ⟨rfl, rfl⟩ := List.cons.inj hp
          rw [List.forall_mem_cons] at hinner
          have hle : [a, x].length ≤ xs.length := hk ▸ hinner.1 hpossible
          refine .inl ⟨?_, k.withdraw :: inner, outer, rfl, houter,
            List.forall_mem_cons.mpr ⟨nofun, hinner.2⟩⟩
          exact (List.prefix_of_prefix_length_le hleads (List.prefix_append xs ys) hle).trans
            (List.prefix_append _ _)

theorem Decided.change (h : Decided a x p) (hpq : Change p q) : Decided a x q := by
  obtain ⟨lead, hlead, hlasts⟩ := h
  exact ⟨lead, hlead, hlasts.change hpq⟩

/-! ### Whole scans -/

/-- **What fetching, dropping keys and handing on keep holds of a scanner whose first tokens are
those of the scan.**  The last of these may not be counted as handed on yet: the end of the
stream. -/
theorem Scan.exists_scanner_of_run {P : Scanner → Prop}
    (fetch : ∀ s s', P s → s.fetch = .ok s' → P s')
    (drop : ∀ s s', P s → s.dropStaleKeys = .ok s' → P s')
    (deliver : ∀ s t, P s → s.tokens[s.delivered]? = some t → t.lexeme ≠ .streamEnd →
      (∀ k ∈ s.keys, k.possible = true → k.number ≠ s.delivered) →
        P { s with delivered := s.delivered + 1 })
    {s : Scanner} (h : P s) (fuel : Nat) :
    ∃ s' n, P s' ∧ n ≤ s'.delivered + 1 ∧ (Scan.run fuel s).tokens = s'.tokens.toList.take n := by
  have hstop : ∀ (s : Scanner) fault, P s → ∃ s' n, P s' ∧ n ≤ s'.delivered + 1 ∧
      (stop s fault).tokens = s'.tokens.toList.take n := fun s fault h =>
    ⟨s, s.delivered, h, Nat.le_succ _, Array.toList_extract⟩
  induction fuel generalizing s with
  | zero => exact hstop s none h
  | succ fuel ih =>
      rw [run]
      dsimp only
      split
      · cases hfetch : s.fetch with
        | error e => exact hstop s _ h
        | ok s' => exact ih (fetch s s' h hfetch)
      · split
        · exact hstop s _ h
        · rename_i t ht _ u hu
          have hu' : P u := drop s u h hu
          split
          · cases hfetch : u.fetch with
            | error e => exact hstop s _ h
            | ok u' => exact ih (fetch u u' hu' hfetch)
          · rename_i hkeys
            split
            · exact ⟨u, u.delivered + 1, hu', Nat.le_refl _, Array.toList_extract⟩
            · rename_i hopen
              have hframe := Scanner.dropStaleKeys_frame hu
              refine ih (deliver u t hu' ?_ (fun hend => hopen (beq_iff_eq.mpr hend)) ?_)
              · rw [hframe]
                exact ht
              · intro k hk hpossible hnumber
                rw [List.any_eq_true] at hkeys
                exact hkeys ⟨k, hk, by rw [hpossible, hnumber, beq_self_eq_true]; rfl⟩

/-- What every change keeps holds of some tokens that a scan hands on the first of. -/
theorem Scan.exists_of_run {P : Stock → Prop} (hP : ∀ p q, P p → Change p q → P q) {s : Scanner}
    (h : P s.stock) (fuel : Nat) : ∃ p, P p ∧ (Scan.run fuel s).tokens <+: p.1 := by
  have hall : ∀ {p q}, Changes p q → P p → P q := by
    intro p q hpq hp
    induction hpq with
    | refl => exact hp
    | tail _ hstep ih => exact hP _ _ ih hstep
  obtain ⟨s', n, hs', -, htokens⟩ := Scan.exists_scanner_of_run (P := fun s => P s.stock)
    (fun _ _ hs hfetch => hall (Scanner.changes_fetch hfetch) hs)
    (fun _ _ hs hdrop => hall (Scanner.changes_dropStaleKeys hdrop) hs)
    (fun _ _ hs _ _ _ => hs) h fuel
  exact ⟨s'.stock, hs', htokens ▸ List.take_prefix _ _⟩

/-- **What lies before all candidates is handed on as it is**, if the scan gets that far. -/
theorem Scan.lasts_run {s : Scanner} (h : Lasts front s.stock) (fuel : Nat) :
    (Scan.run fuel s).tokens <+: front ∨ front <+: (Scan.run fuel s).tokens := by
  obtain ⟨p, hp, hle⟩ := Scan.exists_of_run (fun _ _ => Lasts.change) h fuel
  exact List.prefix_or_prefix_of_prefix hle hp.leads

/-- **The second token is handed on with nothing in front of it or with what makes it a key**, if
the scan gets that far. -/
theorem Scan.exists_lead_of_run {s : Scanner} (h : Undecided a x s.stock) (fuel : Nat) :
    ∃ lead, (lead = [] ∨ KeyLead lead) ∧ ((Scan.run fuel s).tokens <+: a :: (lead ++ [x]) ∨
      a :: (lead ++ [x]) <+: (Scan.run fuel s).tokens) := by
  obtain ⟨p, hp, hle⟩ := Scan.exists_of_run (P := fun p => Undecided a x p ∨ Decided a x p)
    (fun _ _ h hpq => h.elim (·.change hpq) fun h => .inr (h.change hpq)) (.inl h) fuel
  rcases hp with hp | ⟨lead, hlead, hp⟩
  · exact ⟨[], .inl rfl, List.prefix_or_prefix_of_prefix hle hp.leads⟩
  · exact ⟨lead, hlead, List.prefix_or_prefix_of_prefix hle hp.leads⟩

end YamlDelta.Markup
