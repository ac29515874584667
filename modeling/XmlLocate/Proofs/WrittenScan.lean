import XmlLocate.Proofs.Binding
import XmlLocate.Proofs.Rereading

/-!
# The scan of what was written

**Theorem (`scan_source`).** The text of a written document can be scanned, and its element spans are
the extents of its elements, in document order.

Content that is followed by a `<` is read as the tokens it was written with (`lex_source`), whatever
comes behind. Before and behind the root only blanks can run together, so there nothing is said of the
tokens but that they begin no element (`lex_miscSource`).
-/

namespace XmlLocate

/-! ## Tokens -/

theorem Markup.length_token (m : Markup) : m.token.length = byteLength m.source := rfl

theorem Markup.Rereads.lex {m : Markup} (h : m.Rereads) (ha : m.Agrees) (rest : List Char) :
    Token.lex (m.source ++ rest) = m.token :: Token.lex rest := by
  obtain ⟨t, ht, hsplit⟩ := h rest
  rw [ht]
  exact Token.lex_of_heads (heads_of_split hsplit ha)

namespace Written

theorem lex_run (r : Run) {v : List Char} (hv : ['<'] <+: v) :
    Token.lex (r.text ++ v) = ⟨.text, r.text, true⟩ :: Token.lex v := by
  have hheads := Token.Heads.run r.ne_nil r.plain.1 (.inr hv)
  have hempty : v.isEmpty = false := by
    obtain ⟨u, rfl⟩ := hv
    rfl
  rw [hempty] at hheads
  exact Token.lex_of_heads hheads

namespace Content

mutual

/-- The tokens that content is written with. -/
def tokens : Content → List Token
  | element tag children => tag.start.token :: (tokensAll children ++ [tag.stop.token])
  | empty tag => [tag.whole.token]
  | text run => [⟨.text, run.text, true⟩]
  | cdata body => [(Markup.cdata body.text).token]
  | comment body => [(Markup.comment body.text).token]
  | instruction i => [(Markup.instruction i.body).token]

def tokensAll : List Content → List Token
  | [] => []
  | c :: cs => c.tokens ++ tokensAll cs

end

mutual

theorem lex_source : ∀ (c : Content), c.Separated → ∀ {v : List Char},
    (c.isText → ['<'] <+: v) → Token.lex (c.source ++ v) = c.tokens ++ Token.lex v
  | element tag children, hc, v, _ => by
    have hchildren := lex_sourceAll children (by rwa [Separated] at hc)
      (v := tag.stop.source ++ v) ((markup_begins _).trans (List.prefix_append _ _))
    rw [source, tokens, List.append_assoc, List.append_assoc, tag.rereads_start.lex trivial,
      hchildren, tag.rereads_stop.lex tag.agrees_stop]
    simp
  | empty tag, _, v, _ => by
    rw [source, tokens]
    exact tag.rereads_whole.lex trivial v
  | text run, _, v, hv => by
    rw [source, tokens]
    exact lex_run run (hv rfl)
  | cdata body, _, v, _ => by
    rw [source, tokens]
    exact (Markup.rereads_cdata body).lex trivial v
  | comment body, _, v, _ => by
    rw [source, tokens]
    exact (Markup.rereads_comment body).lex trivial v
  | instruction i, _, v, _ => by
    rw [source, tokens]
    exact (Markup.rereads_instruction i).lex trivial v

theorem lex_sourceAll : ∀ (cs : List Content), SeparatedAll cs → ∀ {v : List Char},
    ['<'] <+: v → Token.lex (sourceAll cs ++ v) = tokensAll cs ++ Token.lex v
  | [], _, v, _ => by rw [sourceAll, tokensAll, List.nil_append, List.nil_append]
  | c :: cs, hcs, v, hv => by
    rw [SeparatedAll] at hcs
    obtain ⟨hc, hnext, hcs⟩ := hcs
    rw [sourceAll, tokensAll, List.append_assoc, List.append_assoc, ← lex_sourceAll cs hcs hv]
    exact lex_source c hc fun htext => sourceAll_begins (hnext htext) hv

end

end Content

/-! ## Balance -/

theorem Tag.isStart_start (t : Tag) : t.start.token.isStart := by
  simp [start, Markup.token, Markup.opening, Markup.body, Opening.form, Token.isStart,
    t.getLast?_content]

theorem Tag.isClose_stop (t : Tag) : t.stop.token.isClose := rfl

theorem Tag.form_whole (t : Tag) : t.whole.token.form = .emptyTag := by
  simp [whole, Markup.token, Markup.opening, Markup.body, Opening.form]

theorem Tag.isLeaf_whole (t : Tag) : t.whole.token.isLeaf := by
  rw [Token.isLeaf, t.form_whole]
  rfl

theorem balanced_singleton {k : Token} (hk : k.isLeaf) : Balanced [k] := .leaf hk .nil

namespace Content

mutual

theorem balanced_tokens : ∀ c : Content, Balanced c.tokens
  | element tag children => by
    rw [tokens]
    exact .element tag.isStart_start tag.isClose_stop (balanced_tokensAll children) .nil
  | empty tag => by
    rw [tokens]
    exact balanced_singleton tag.isLeaf_whole
  | text _ | cdata _ | comment _ | instruction _ => by
    rw [tokens]
    exact balanced_singleton rfl

theorem balanced_tokensAll : ∀ cs : List Content, Balanced (tokensAll cs)
  | [] => by
    rw [tokensAll]
    exact .nil
  | c :: cs => by
    rw [tokensAll]
    exact (balanced_tokens c).append (balanced_tokensAll cs)

end

mutual

theorem lengthOf_tokens : ∀ c : Content, lengthOf c.tokens = byteLength c.source
  | element tag children => by
    rw [tokens, source, lengthOf_cons, lengthOf_append, lengthOf_tokensAll children]
    simp [Markup.length_token]
  | empty _ | text _ | cdata _ | comment _ | instruction _ => by
    rw [tokens, source, lengthOf_cons, lengthOf_nil]
    rfl

theorem lengthOf_tokensAll : ∀ cs : List Content, lengthOf (tokensAll cs) = byteLength (sourceAll cs)
  | [] => by
    rw [tokensAll, sourceAll]
    rfl
  | c :: cs => by
    rw [tokensAll, sourceAll, lengthOf_append, byteLength_append, lengthOf_tokens c,
      lengthOf_tokensAll cs]

end

end Content

/-! ## Extents -/

/-- The spans of elements among those of tokens. -/
def elementSpansOf (sequence offset : Nat) (ks : List Token) : List Span :=
  (spansOf sequence offset ks).filter (·.kind == .element)

theorem elementSpansOf_append {xs : List Token} (h : Balanced xs) (sequence offset : Nat)
    (ys : List Token) : ∃ sequence', elementSpansOf sequence offset (xs ++ ys) =
      elementSpansOf sequence offset xs ++ elementSpansOf sequence' (offset + lengthOf xs) ys := by
  refine ⟨sequence + (spansOf sequence offset xs).length, ?_⟩
  rw [elementSpansOf, spansOf_append h, List.filter_append]
  rfl

theorem elementSpansOf_singleton {k : Token} (hk : k.isLeaf) (hkind : k.kind? ≠ some .element)
    (sequence offset : Nat) : elementSpansOf sequence offset [k] = [] := by
  rw [elementSpansOf, spansOf_leaf hk, leafSpans]
  cases h : k.kind? with
  | none => rfl
  | some kind =>
    have hne : kind ≠ .element := by
      rintro rfl
      exact hkind h
    simp [spansOf, hne]

/-- The span is that of the element with this extent. -/
def Extent.Of (s : Span) (e : Extent) : Prop :=
  s.start = e.start ∧ s.headEnd = some e.headEnd ∧ s.stop = some e.stop

namespace Content

mutual

theorem forall₂_extents : ∀ (c : Content) (sequence offset : Nat),
    List.Forall₂ Extent.Of (elementSpansOf sequence offset c.tokens) (c.extents offset)
  | element tag children, sequence, offset => by
    have hinner := balanced_tokensAll children
    have hspans : elementSpansOf sequence offset (element tag children).tokens =
        elementSpan sequence offset tag.start.token (tokensAll children) tag.stop.token ::
          elementSpansOf (sequence + 1) (offset + tag.start.token.length) (tokensAll children) := by
      rw [elementSpansOf, tokens, spansOf_element tag.isStart_start tag.isClose_stop hinner]
      simp [elementSpan, elementSpansOf, spansOf]
    rw [hspans, extents]
    refine .cons ⟨rfl, rfl, ?_⟩ (forall₂_extentsAll children _ _)
    rw [elementSpan, lengthOf_tokensAll]
    rfl
  | empty tag, sequence, offset => by
    have hkind : tag.whole.token.kind? = some .element := by rw [Token.kind?, tag.form_whole]
    have hspans : elementSpansOf sequence offset (empty tag).tokens =
        [⟨sequence, .element, offset, some (offset + tag.whole.token.length),
          some (offset + tag.whole.token.length)⟩] := by
      rw [elementSpansOf, tokens, spansOf_leaf tag.isLeaf_whole, leafSpans, hkind]
      rfl
    rw [hspans, extents]
    exact .cons ⟨rfl, rfl, rfl⟩ .nil
  | text _, _, _ | cdata _, _, _ | comment _, _, _ | instruction _, _, _ => by
    rw [tokens, extents, elementSpansOf_singleton rfl (by rintro ⟨⟩)]
    exact .nil

theorem forall₂_extentsAll : ∀ (cs : List Content) (sequence offset : Nat),
    List.Forall₂ Extent.Of (elementSpansOf sequence offset (tokensAll cs)) (extentsAll offset cs)
  | [], _, _ => by
    rw [tokensAll, extentsAll]
    exact .nil
  | c :: cs, sequence, offset => by
    obtain ⟨sequence', hspans⟩ :=
      elementSpansOf_append (balanced_tokens c) sequence offset (tokensAll cs)
    rw [tokensAll, extentsAll, hspans, lengthOf_tokens]
    exact List.rel_append (forall₂_extents c _ _) (forall₂_extentsAll cs _ _)

end

end Content

/-! ## Before and behind the root -/

/-- Tokens none of which begins or ends an element. -/
def Beside (ks : List Token) : Prop := ∀ k ∈ ks, k.isLeaf ∧ k.kind? ≠ some .element

theorem Beside.balanced {ks : List Token} (h : Beside ks) : Balanced ks := by
  induction ks with
  | nil => exact .nil
  | cons k ks ih =>
    refine .leaf (h k (by simp)).1 (ih ?_)
    intro j hj
    exact h j (List.mem_cons_of_mem _ hj)

theorem Beside.elementSpansOf_eq_nil {ks : List Token} (h : Beside ks) (sequence offset : Nat) :
    elementSpansOf sequence offset ks = [] := by
  induction ks generalizing sequence offset with
  | nil => rfl
  | cons k ks ih =>
    obtain ⟨hleaf, hkind⟩ := h k (by simp)
    obtain ⟨sequence', hspans⟩ :=
      elementSpansOf_append (balanced_singleton hleaf) sequence offset ks
    rw [← List.singleton_append, hspans, elementSpansOf_singleton hleaf hkind, List.nil_append]
    apply ih
    intro j hj
    exact h j (List.mem_cons_of_mem _ hj)

theorem beside_cons {k : Token} {ks : List Token} (hk : k.isLeaf) (hkind : k.kind? ≠ some .element)
    (h : Beside ks) : Beside (k :: ks) := by
  intro j hj
  rcases List.mem_cons.mp hj with rfl | hj
  · exact ⟨hk, hkind⟩
  · exact h j hj

theorem lex_blanks {u v : List Char} (hu : '<' ∉ u) (hv : v = [] ∨ ['<'] <+: v) :
    ∃ ks, Beside ks ∧ lengthOf ks = byteLength u ∧ Token.lex (u ++ v) = ks ++ Token.lex v := by
  by_cases hne : u = []
  · refine ⟨[], ?_, ?_, ?_⟩
    · intro k hk
      simp at hk
    · rw [hne]
      rfl
    · rw [hne]
      rfl
  · refine ⟨[⟨.text, u, !v.isEmpty⟩], ?_, ?_, Token.lex_of_heads (.run hne hu hv)⟩
    · refine beside_cons rfl ?_ (by intro k hk; simp at hk)
      simp only [Token.kind?]
      split <;> simp
    · simp [Token.length]

/-- A piece of markup behind blanks, as tokens. -/
theorem lex_blanks_markup {u : List Char} (hu : '<' ∉ u) {m : Markup} (hm : m.Rereads)
    (ha : m.Agrees) (hleaf : m.token.isLeaf) (hkind : m.token.kind? ≠ some .element)
    {rest v : List Char} {ks : List Token} (hks : Beside ks) (hlen : lengthOf ks = byteLength rest)
    (hlex : Token.lex (rest ++ v) = ks ++ Token.lex v) :
    ∃ ks', Beside ks' ∧ lengthOf ks' = byteLength (u ++ (m.source ++ rest)) ∧
      Token.lex (u ++ (m.source ++ rest ++ v)) = ks' ++ Token.lex v := by
  rw [List.append_assoc]
  obtain ⟨us, hus, hlen', hu⟩ := lex_blanks hu (v := m.source ++ (rest ++ v))
    (.inr ((markup_begins m).trans (List.prefix_append _ _)))
  refine ⟨us ++ m.token :: ks, ?_, ?_, ?_⟩
  · intro k hk
    rcases List.mem_append.mp hk with hk | hk
    · exact hus k hk
    · exact beside_cons hleaf hkind hks k hk
  · rw [lengthOf_append, lengthOf_cons, hlen', hlen, Markup.length_token, byteLength_append,
      byteLength_append]
  · rw [hu, hm.lex ha, hlex]
    simp

theorem lex_miscSource (ms : List Misc) {u v : List Char} (hu : '<' ∉ u)
    (hv : v = [] ∨ ['<'] <+: v) :
    ∃ ks, Beside ks ∧ lengthOf ks = byteLength (u ++ miscSource ms) ∧
      Token.lex (u ++ (miscSource ms ++ v)) = ks ++ Token.lex v := by
  -- Blanks run together with those before them, so the induction carries the blanks read so far.
  induction ms generalizing u with
  | nil =>
    obtain ⟨ks, hks, hlen, hlex⟩ := lex_blanks hu hv
    refine ⟨ks, hks, ?_, hlex⟩
    rw [hlen, miscSource, List.flatMap_nil, List.append_nil]
  | cons m ms ih =>
    rw [miscSource_cons]
    cases m with
    | blanks w hw =>
      obtain ⟨ks, hks, hlen, hlex⟩ := ih (notMem_append_of_blank hu hw)
      refine ⟨ks, hks, ?_, ?_⟩
      · rw [hlen, List.append_assoc]
        rfl
      · rw [← hlex]
        simp [Misc.source]
    | comment body =>
      obtain ⟨ks, hks, hlen, hlex⟩ := ih (u := []) (by simp)
      exact lex_blanks_markup hu (Markup.rereads_comment body) trivial rfl (by rintro ⟨⟩) hks hlen hlex
    | instruction i =>
      obtain ⟨ks, hks, hlen, hlex⟩ := ih (u := []) (by simp)
      exact lex_blanks_markup hu (Markup.rereads_instruction i) trivial rfl (by rintro ⟨⟩) hks hlen hlex

/-! ## Documents -/

/-- **The scan of a written document** finds its elements where they were written. -/
theorem scan_source (d : Written) :
    ∃ s, scan d.source = .ok s ∧ List.Forall₂ Extent.Of s.elementSpans d.extents := by
  obtain ⟨before, hbefore, hlen, hlex⟩ := lex_miscSource d.prolog (u := []) (by simp) (.inr d.root_begins)
  obtain ⟨behind, hbehind, -, hlex'⟩ := lex_miscSource d.epilog (u := []) (by simp) (.inl rfl)
  simp only [List.nil_append, List.append_nil] at hlex hlen hlex'
  have hnil : Token.lex [] = [] := by rw [Token.lex, dif_pos rfl]
  have htokens : Token.lex d.source = before ++ (d.root.tokens ++ behind) := by
    rw [source, hlex, Content.lex_source d.root d.separated fun h => absurd h d.not_isText_root,
      hlex', hnil, List.append_nil]
  have hbalanced : Balanced (Token.lex d.source) := by
    rw [htokens]
    exact hbefore.balanced.append ((Content.balanced_tokens _).append hbehind.balanced)
  refine ⟨_, scan_eq_ok_iff.mpr ⟨hbalanced, rfl⟩, ?_⟩
  show List.Forall₂ Extent.Of (elementSpansOf 0 0 (Token.lex d.source)) d.extents
  obtain ⟨sequence, hspans⟩ :=
    elementSpansOf_append hbefore.balanced 0 0 (d.root.tokens ++ behind)
  obtain ⟨sequence', hspans'⟩ :=
    elementSpansOf_append (Content.balanced_tokens d.root) sequence (lengthOf before) behind
  rw [htokens, hspans, hbefore.elementSpansOf_eq_nil, Nat.zero_add, hspans',
    hbehind.elementSpansOf_eq_nil, List.nil_append, List.append_nil, extents, ← hlen]
  exact Content.forall₂_extents _ _ _

end Written

end XmlLocate
