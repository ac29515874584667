import XmlLocate.Proofs.Pieces
import XmlLocate.Proofs.Relocation
import XmlLocate.Proofs.Slices

/-!
# Fragments of a text

**Theorem (`scan_fragment`).** The text of a span other than a run of text, scanned by itself, has the
spans that the whole text has there: the span and those in it, counted from its rank and from its
beginning.

The tokens of such a span are a block (`IsBlock`): one token, or a pair of tags with all between them.
A block does not end in a run of text, so its tokens are those of its own text
(`lex_of_block`), and it is balanced, so its spans do not depend on what surrounds it.
-/

namespace XmlLocate

/-! ## Ranks -/

/-- The number of tokens that have a span. -/
def rankOf (ks : List Token) : Nat := ks.countP fun k => k.kind?.isSome

@[simp] theorem rankOf_nil : rankOf [] = 0 := rfl

@[simp] theorem rankOf_append (xs ys : List Token) : rankOf (xs ++ ys) = rankOf xs + rankOf ys :=
  List.countP_append

theorem rankOf_cons_of_some {k : Token} {kind : SpanKind} (hk : k.kind? = some kind)
    (ks : List Token) : rankOf (k :: ks) = rankOf ks + 1 := by
  rw [rankOf, List.countP_cons_of_pos (by simp [hk]), rankOf]

theorem rankOf_cons_of_none {k : Token} (hk : k.kind? = none) (ks : List Token) :
    rankOf (k :: ks) = rankOf ks := by
  rw [rankOf, List.countP_cons_of_neg (by simp [hk]), rankOf]

theorem length_spansOf (sequence offset : Nat) (ks : List Token) :
    (spansOf sequence offset ks).length = rankOf ks := by
  induction ks generalizing sequence offset with
  | nil => rfl
  | cons k ks ih =>
    rw [spansOf]
    cases hk : k.kind? with
    | none => rw [rankOf_cons_of_none hk, ih]
    | some kind => rw [rankOf_cons_of_some hk, List.length_cons, ih]

/-- The spans of the last tokens. Those of the first ones may reach into them, but come first. -/
theorem drop_spansOf (sequence offset : Nat) (xs ys : List Token) :
    (spansOf sequence offset (xs ++ ys)).drop (rankOf xs) =
      spansOf (sequence + rankOf xs) (offset + lengthOf xs) ys := by
  induction xs generalizing sequence offset with
  | nil => rfl
  | cons k xs ih =>
    rw [List.cons_append, spansOf, lengthOf_cons, ← Nat.add_assoc]
    cases hk : k.kind? with
    | none => rw [rankOf_cons_of_none hk, ih]
    | some kind => rw [rankOf_cons_of_some hk, List.drop_succ_cons, ih, Nat.add_right_comm, Nat.add_assoc]

/-! ## Blocks -/

/-- The tokens of one span: a token that stands for itself, or a pair of tags and all between them. -/
inductive IsBlock : List Token → Prop
  | leaf {k : Token} {kind : SpanKind} : k.isLeaf → k.kind? = some kind → IsBlock [k]
  | element {o c : Token} {inner : List Token} : o.isStart → c.isClose → Balanced inner →
      IsBlock (o :: (inner ++ [c]))

theorem IsBlock.balanced {ks : List Token} (h : IsBlock ks) : Balanced ks := by
  cases h with
  | leaf hk => exact .leaf hk .nil
  | element ho hc hi => exact .element ho hc hi .nil

/-- The tokens of the span of each rank are a block. -/
theorem exists_block {ks : List Token} (h : Balanced ks) {i : Nat} (hi : i < rankOf ks) :
    ∃ before block behind, ks = before ++ block ++ behind ∧ IsBlock block ∧ rankOf before = i := by
  induction h generalizing i with
  | nil => exact absurd hi (by simp)
  | @leaf k ks hk _ ih =>
    cases hkind : k.kind? with
    | none =>
      rw [rankOf_cons_of_none hkind] at hi
      obtain ⟨before, block, behind, rfl, hblock, rfl⟩ := ih hi
      exact ⟨k :: before, block, behind, rfl, hblock, rankOf_cons_of_none hkind _⟩
    | some kind =>
      rw [rankOf_cons_of_some hkind] at hi
      cases i with
      | zero => exact ⟨[], [k], ks, rfl, .leaf hk hkind, rfl⟩
      | succ i =>
        obtain ⟨before, block, behind, rfl, hblock, rfl⟩ := ih (Nat.lt_of_succ_lt_succ hi)
        exact ⟨k :: before, block, behind, rfl, hblock, rankOf_cons_of_some hkind _⟩
  | @element o c inner rest ho hc hinner _ ihi ihr =>
    have hkind : o.kind? = some .element := by simp [Token.kind?, Token.form_of_isStart ho]
    have hclose : c.kind? = none := by simp [Token.kind?, Token.form_of_isClose hc]
    rw [rankOf_cons_of_some hkind, rankOf_append, rankOf_cons_of_none hclose] at hi
    cases i with
    | zero => exact ⟨[], o :: (inner ++ [c]), rest, by simp, .element ho hc hinner, rfl⟩
    | succ i =>
      by_cases hlt : i < rankOf inner
      · obtain ⟨before, block, behind, rfl, hblock, rfl⟩ := ihi hlt
        exact ⟨o :: before, block, behind ++ c :: rest, by simp, hblock, rankOf_cons_of_some hkind _⟩
      · obtain ⟨before, block, behind, rfl, hblock, hrank⟩ := ihr (i := i - rankOf inner) (by omega)
        refine ⟨o :: (inner ++ c :: before), block, behind, by simp, hblock, ?_⟩
        rw [rankOf_cons_of_some hkind, rankOf_append, rankOf_cons_of_none hclose, hrank]
        omega

/-- The first span of a block is its own, and takes all of it. -/
theorem IsBlock.exists_span {n offset : Nat} {ks : List Token} (h : IsBlock ks)
    (hf : Fits n offset ks) (sequence : Nat) : ∃ s ss, spansOf sequence offset ks = s :: ss ∧ s.start = offset ∧
      s.stopIn n = offset + lengthOf ks ∧ (s.kind ≠ .text → ∀ k ∈ ks.getLast?, k.form ≠ .text) := by
  cases h with
  | @leaf k kind hk hkind =>
    obtain ⟨s, hs, hkind'⟩ : ∃ s, leafSpans sequence offset k = [s] ∧ s.kind = kind := by
      rw [leafSpans, hkind]
      exact ⟨_, rfl, rfl⟩
    obtain ⟨hstart, hstop⟩ := bounds_leafSpans hf.head.2 (hs ▸ List.mem_singleton_self s)
    refine ⟨s, [], ?_, hstart, ?_, ?_⟩
    · rw [spansOf_leaf hk, hs]
      rfl
    · rw [hstop, lengthOf_cons, lengthOf_nil, Nat.add_zero]
    · intro hne j hj
      obtain rfl : k = j := by simpa using hj
      intro hform
      simp only [Token.kind?, hform] at hkind
      split_ifs at hkind
      obtain rfl := Option.some.inj hkind
      exact hne hkind'
  | @element o c inner ho hc hi =>
    refine ⟨_, _, spansOf_element ho hc hi sequence offset [], rfl, ?_, ?_⟩
    · simp [elementSpan, Span.stopIn, Nat.add_assoc]
    · intro _ j hj
      rw [← List.cons_append, List.getLast?_concat] at hj
      obtain rfl := Option.some.inj hj
      rw [Token.form_of_isClose hc]
      simp

/-! ## Fragments -/

theorem Token.Tokenises.right {t : List Char} {xs ys : List Token} (h : Tokenises t (xs ++ ys)) :
    Tokenises (ys.flatMap Token.text) ys := by
  induction xs generalizing t with
  | nil =>
    have hlex : lex t = ys := tokenises_iff.mp h
    rw [← hlex, texts_lex]
    exact tokenises_iff.mpr rfl
  | cons k xs ih =>
    cases h with
    | cons _ h => exact ih h

/-- Tokens that stand together in a text are those of their own text, unless text comes last: it would
have lost what ended it. -/
theorem Token.lex_of_infix {source : List Char} {before block behind : List Token}
    (h : lex source = before ++ (block ++ behind))
    (hlast : ∀ k ∈ block.getLast?, k.form ≠ .text) : lex (block.flatMap Token.text) = block := by
  have htokens := (tokenises_iff.mpr h).right
  rw [List.flatMap_append] at htokens
  have hblock : Tokenises (block.flatMap Token.text ++ []) (block ++ []) :=
    Tokenises.replace (r := behind.flatMap Token.text) (by simpa using htokens) .nil
      (.inr (.inr hlast))
  rw [List.append_nil, List.append_nil] at hblock
  exact tokenises_iff.mp hblock

/-- The spans from one on that begin before its end. -/
def Scan.spansWithin (r : Scan) (i : Nat) (hi : i < r.spans.size) : List Span :=
  (r.spans.toList.drop i).takeWhile fun s => s.start < r.spans[i].stopIn r.lines.length

/-- The spans of a block are those that begin before its end. -/
theorem takeWhile_spansOf {n sequence offset : Nat} {block behind : List Token} (h : Balanced block)
    (hf : Fits n offset block) :
    (spansOf sequence offset (block ++ behind)).takeWhile (·.start < offset + lengthOf block) =
      spansOf sequence offset block := by
  have hnext : ∀ ss : List Span, (∀ s ∈ ss, offset + lengthOf block ≤ s.start) →
      ss.takeWhile (·.start < offset + lengthOf block) = [] := by
    intro ss hss
    cases ss with
    | nil => rfl
    | cons s ss => rw [List.takeWhile_cons_of_neg (by simpa using hss s (List.mem_cons_self ..))]
  rw [spansOf_append h, List.takeWhile_append_of_pos, hnext, List.append_nil]
  · intro s hs
    exact start_of_mem_spansOf hs
  · intro s hs
    have := bounds_spansOf h hf hs
    rw [decide_eq_true_iff]
    omega

theorem mem_takeWhile_start {ss : List Span} (h : ss.Pairwise fun s t => s.start < t.start) {b : Nat}
    {s : Span} : s ∈ ss.takeWhile (·.start < b) ↔ s ∈ ss ∧ s.start < b := by
  induction ss with
  | nil => simp
  | cons t ss ih =>
    obtain ⟨ht, hss⟩ := List.pairwise_cons.mp h
    by_cases hlt : t.start < b
    · rw [List.takeWhile_cons_of_pos (by simpa using hlt), List.mem_cons, List.mem_cons, ih hss, or_and_right]
      refine or_congr_left ⟨?_, And.left⟩
      rintro rfl
      exact ⟨rfl, hlt⟩
    · rw [List.takeWhile_cons_of_neg (by simpa using hlt)]
      refine iff_of_false (by simp) ?_
      rintro ⟨hs, hsb⟩
      rcases List.mem_cons.mp hs with rfl | hs
      · exact hlt hsb
      · have := ht s hs
        omega

/-- Of spans that precede each other, those that begin before the end of one are those in it. -/
theorem mem_takeWhile_drop_iff {n : Nat} {tags : List (Nat × Token)} {ss : List Span}
    (hpair : ss.Pairwise (Precedes n tags)) (hbound : ∀ s ∈ ss, s.start < s.stopIn n) {i : Nat}
    (hi : i < ss.length) {s : Span} (hs : s ∈ ss) :
    s ∈ (ss.drop i).takeWhile (·.start < ss[i].stopIn n) ↔ Contains n ss[i] s := by
  have hpos := hbound s hs
  have hdrop := List.drop_eq_getElem_cons hi
  rw [← List.take_append_drop i ss, hdrop] at hpair hs
  obtain ⟨-, hlater, hearlier⟩ := List.pairwise_append.mp hpair
  rw [hdrop, mem_takeWhile_start (hlater.imp And.left)]
  constructor
  · rintro ⟨hmem, hlt⟩
    rcases List.mem_cons.mp hmem with rfl | hmem
    · exact ⟨Nat.le_refl _, Nat.le_refl _⟩
    · exact (List.rel_of_pairwise_cons hlater hmem).contains hlt
  · rintro ⟨hstart, hstop⟩
    refine ⟨?_, by omega⟩
    rcases List.mem_append.mp hs with hs | hs
    · have := (hearlier s hs _ (List.mem_cons_self ..)).1
      omega
    · exact hs

/-- The spans that begin in one are those that it contains. -/
theorem Scan.mem_spansWithin_iff {source : List Char} {r : Scan} (h : scan source = .ok r) {i : Nat}
    (hi : i < r.spans.size) {s : Span} (hs : s ∈ r.spans) :
    s ∈ r.spansWithin i hi ↔ Contains r.lines.length r.spans[i] s := by
  have hlength := length_lines_of_scan h
  obtain ⟨hb, hr⟩ := scan_eq_ok_iff.mp h
  have hfits := fits_lex source
  have hspans : r.spans.toList = spansOf 0 0 (Token.lex source) := by rw [hr]
  have hpair : r.spans.toList.Pairwise (Precedes r.lines.length (closeTags 0 (Token.lex source))) := by
    rw [hspans, hlength]
    exact pairwise_spansOf hb hfits fun _ h => h
  refine mem_takeWhile_drop_iff hpair ?_ hi (Array.mem_toList_iff.mpr hs)
  intro t ht
  rw [hspans] at ht
  rw [hlength]
  exact (bounds_spansOf hb hfits ht).2.1

/-- **The text of a span has the spans that lie in it**, counted from its rank and its beginning. -/
theorem scan_fragment {source : List Char} {r : Scan} (h : scan source = .ok r) {i : Nat}
    (hi : i < r.spans.size) (hkind : r.spans[i].kind ≠ .text) :
    ∃ f r', (Location.mk r.spans[i] r.lines source).text? = some f ∧ scan f = .ok r' ∧
      r'.spans.toList = (r.spansWithin i hi).map (Span.relocate (· - i) (· - r.spans[i].start)) ∧
      ∀ s ∈ r.spans, s ∈ r.spansWithin i hi ↔ Contains r.lines.length r.spans[i] s := by
  have hlength := length_lines_of_scan h
  obtain ⟨hb, hr⟩ := scan_eq_ok_iff.mp h
  have hfits := fits_lex source
  have hspans : r.spans.toList = spansOf 0 0 (Token.lex source) := by rw [hr]
  have hrank : i < rankOf (Token.lex source) := by
    rwa [← length_spansOf 0 0, ← hspans]
  obtain ⟨before, block, behind, hks, hblock, rfl⟩ := exists_block hb hrank
  have hks' := hks
  rw [List.append_assoc] at hks'
  rw [hks'] at hfits hspans
  have hdrop := drop_spansOf 0 0 before (block ++ behind)
  have hfits' := hfits.right.left
  rw [← hspans, Nat.zero_add, Nat.zero_add] at hdrop
  rw [Nat.zero_add] at hfits'
  -- The span at the rank is that of the block.
  obtain ⟨s, ss, hfirst, hstart, hstop, hlast⟩ := hblock.exists_span hfits' (rankOf before)
  have hget : r.spans[rankOf before] = s := by
    have hcons := List.drop_eq_getElem_cons (i := rankOf before) (l := r.spans.toList) hi
    rw [hdrop, spansOf_append hblock.balanced, hfirst] at hcons
    exact (List.cons.inj hcons).1.symm
  have hwithin : r.spansWithin (rankOf before) hi = spansOf (rankOf before) (lengthOf before) block := by
    rw [Scan.spansWithin, hget, hdrop, hlength, hstop]
    exact takeWhile_spansOf hblock.balanced hfits'
  rw [hget] at hkind ⊢
  have hlex := Token.lex_of_infix hks' (hlast hkind)
  have hrelocates : Relocates (· - lengthOf before) (lengthOf before) block 0 block := by
    refine .of_add ?_ block
    intro n
    rw [Nat.add_sub_cancel_left, Nat.zero_add]
  refine ⟨block.flatMap Token.text, ⟨(spansOf 0 0 block).toArray, linesAfter .empty block⟩, ?_, ?_, ?_, ?_⟩
  · rw [Location.text?, Location.startOffset, Location.stopOffset, hlength, hstop, hstart]
    exact slice?_of_tokens hks
  · rw [scan_eq_ok_iff, hlex]
    exact ⟨hblock.balanced, rfl⟩
  · rw [hwithin, hstart]
    exact hrelocates.spansOf_eq fun n => by omega
  · intro t ht
    rw [← hget]
    exact Scan.mem_spansWithin_iff h hi ht

/-- An element behind text, with another in it. -/
theorem fragment_behind_text :
    ∃ f r', (Location.mk ⟨1, .element, 1, some 4, some 12⟩ (.ofText "x<a><b/></a>".toList)
        "x<a><b/></a>".toList).text? = some f ∧ scan f = .ok r' ∧
      r'.spans.toList = [⟨0, .element, 0, some 3, some 11⟩, ⟨1, .element, 3, some 7, some 7⟩] := by
  have h : scan "x<a><b/></a>".toList = .ok ⟨#[⟨0, .text, 0, none, some 1⟩,
      ⟨1, .element, 1, some 4, some 12⟩, ⟨2, .element, 4, some 8, some 8⟩],
      .ofText "x<a><b/></a>".toList⟩ := by cbv
  obtain ⟨f, r', htext, hscan, hspans, -⟩ := scan_fragment h (i := 1) (by decide) (by decide)
  exact ⟨f, r', htext, hscan, hspans.trans (by cbv)⟩

end XmlLocate
