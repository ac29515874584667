import Mathlib.Combinatorics.Enumerative.DyckWord
import XmlLocate.Proofs.Tokenisation

/-!
# The spans of a text form a forest

**Theorem (`scan_forest`).** In a scan that succeeds, the start and close tags form a Dyck word, every
element ends behind the close tag that matches its start tag, and of two spans either one ends
before the other begins, or one is an element and holds the other between its tags (`Forest`).

Everything is an induction on balanced tokens. What makes it go through for unfinished tokens, which
have no end of their own, is to speak of `Span.stopIn n`: in a text of `n` bytes an unfinished token
ends at `n`, so the span of every leaf reaches from the beginning of its token to its end (`Fits`,
`bounds_leafSpans`).
-/

namespace XmlLocate

/-! ## Brackets -/

/-- Start tags as opening and close tags as closing brackets. -/
def brackets (ks : List Token) : List DyckStep :=
  ks.filterMap fun k => if k.isStart then some .U else if k.isClose then some .D else none

/-- The tags of these tokens are balanced. -/
def IsDyck (ks : List Token) : Prop := ∃ w : DyckWord, w.toList = brackets ks

/-- The close tags, in their places. -/
def closeTags (offset : Nat) (ks : List Token) : List (Nat × Token) :=
  (placed offset ks).filter fun p => p.2.isClose

theorem Token.not_isStart_of_isLeaf {k : Token} (h : k.isLeaf) : ¬ k.isStart := by
  intro hs
  exact (form_ne_of_isLeaf h).1 (form_of_isStart hs)

theorem Token.not_isClose_of_isLeaf {k : Token} (h : k.isLeaf) : ¬ k.isClose := by
  intro hc
  exact (form_ne_of_isLeaf h).2 (form_of_isClose hc)

theorem Token.not_isClose_of_isStart {k : Token} (h : k.isStart) : ¬ k.isClose := by
  intro hc
  have := (form_of_isStart h).symm.trans (form_of_isClose hc)
  simp at this

theorem Token.not_isStart_of_isClose {k : Token} (h : k.isClose) : ¬ k.isStart := fun hs =>
  not_isClose_of_isStart hs h

theorem Balanced.isDyck {ks : List Token} (h : Balanced ks) : IsDyck ks := by
  induction h with
  | nil => exact ⟨0, rfl⟩
  | leaf hk _ ih =>
    obtain ⟨w, hw⟩ := ih
    refine ⟨w, ?_⟩
    rw [hw, brackets, brackets, List.filterMap_cons, if_neg (Token.not_isStart_of_isLeaf hk),
      if_neg (Token.not_isClose_of_isLeaf hk)]
  | @element o c inner rest ho hc _ _ ihi ihr =>
    obtain ⟨v, hv⟩ := ihi
    obtain ⟨w, hw⟩ := ihr
    refine ⟨v.nest + w, ?_⟩
    show [DyckStep.U] ++ v.toList ++ [DyckStep.D] ++ w.toList = _
    rw [hv, hw]
    simp [brackets, ho, hc, Token.not_isStart_of_isClose hc]

/-! ## Where spans begin and end -/

/-- Each token takes some bytes, and an unfinished one takes all up to `n`. -/
def Fits (n offset : Nat) (ks : List Token) : Prop :=
  ∀ p ∈ placed offset ks, 0 < p.2.length ∧ (p.2.complete = false → p.1 + p.2.length = n)

theorem Fits.head {n offset : Nat} {k : Token} {ks : List Token} (h : Fits n offset (k :: ks)) :
    0 < k.length ∧ (k.complete = false → offset + k.length = n) :=
  h (offset, k) (by simp)

theorem Fits.tail {n offset : Nat} {k : Token} {ks : List Token} (h : Fits n offset (k :: ks)) :
    Fits n (offset + k.length) ks :=
  fun p hp => h p (List.mem_cons_of_mem _ hp)

theorem Fits.left {n offset : Nat} {xs ys : List Token} (h : Fits n offset (xs ++ ys)) :
    Fits n offset xs := fun p hp => h p (by simp [hp])

theorem Fits.right {n offset : Nat} {xs ys : List Token} (h : Fits n offset (xs ++ ys)) :
    Fits n (offset + lengthOf xs) ys := fun p hp => h p (by simp [hp])

variable {n : Nat}

theorem bounds_leafSpans {sequence offset : Nat} {k : Token}
    (hk : k.complete = false → offset + k.length = n) {s : Span}
    (hs : s ∈ leafSpans sequence offset k) : s.start = offset ∧ s.stopIn n = offset + k.length := by
  unfold leafSpans at hs
  cases hkind : k.kind? with
  | none => simp [hkind] at hs
  | some kind =>
    simp only [hkind, List.mem_singleton] at hs
    subst hs
    refine ⟨rfl, ?_⟩
    cases hc : k.complete with
    | true => rfl
    | false => exact (hk hc).symm

theorem bounds_spansOf {ks : List Token} (h : Balanced ks) {sequence offset : Nat}
    (hf : Fits n offset ks) {s : Span} (hs : s ∈ spansOf sequence offset ks) :
    offset ≤ s.start ∧ s.start < s.stopIn n ∧ s.stopIn n ≤ offset + lengthOf ks := by
  induction h generalizing sequence offset with
  | nil => simp [spansOf] at hs
  | @leaf k ks hk _ ih =>
    have hpos := hf.head
    rw [spansOf_leaf hk, List.mem_append] at hs
    rw [lengthOf_cons]
    rcases hs with hs | hs
    · obtain ⟨hstart, hstop⟩ := bounds_leafSpans hpos.2 hs
      omega
    · have := ih hf.tail hs
      omega
  | @element o c inner rest ho hc hi _ ihi ihr =>
    have hpos := hf.head
    have hinner : Fits n (offset + o.length) inner := hf.tail.left
    have hrest : Fits n (offset + o.length + lengthOf inner + c.length) rest := hf.tail.right.tail
    rw [spansOf_element ho hc hi, List.mem_cons, List.mem_append] at hs
    simp only [lengthOf_cons, lengthOf_append]
    rcases hs with rfl | hs | hs
    · simp only [elementSpan, Span.stopIn, Option.getD_some]
      omega
    · have := ihi hinner hs
      omega
    · have := ihr hrest hs
      omega

/-! ## Pairs of spans -/

/-- `outer` is an element that holds `inner` between the end of its start tag and the beginning of
its close tag, which is among `tags`. -/
def Within (n : Nat) (tags : List (Nat × Token)) (outer inner : Span) : Prop :=
  outer.kind = .element ∧ (∃ h, outer.headEnd = some h ∧ h ≤ inner.start) ∧
    ∃ q ∈ tags, outer.stop = some (q.1 + q.2.length) ∧ inner.stopIn n ≤ q.1

/-- The relation between a span and a later one. -/
def Precedes (n : Nat) (tags : List (Nat × Token)) (s t : Span) : Prop :=
  s.start < t.start ∧ (s.stopIn n ≤ t.start ∨ Within n tags s t)

theorem pairwise_leafSpans (sequence offset : Nat) (k : Token) (R : Span → Span → Prop) :
    (leafSpans sequence offset k).Pairwise R := by
  unfold leafSpans
  cases k.kind? <;> simp

theorem pairwise_spansOf {ks : List Token} (h : Balanced ks) {sequence offset : Nat}
    (hf : Fits n offset ks) {tags : List (Nat × Token)}
    (htags : ∀ q ∈ closeTags offset ks, q ∈ tags) :
    (spansOf sequence offset ks).Pairwise (Precedes n tags) := by
  induction h generalizing sequence offset with
  | nil => exact .nil
  | @leaf k ks hk hks ih =>
    have hpos := hf.head
    rw [spansOf_leaf hk]
    refine List.pairwise_append.mpr ⟨pairwise_leafSpans _ _ _ _, ih hf.tail ?_, ?_⟩
    · intro q hq
      refine htags q ?_
      simp only [closeTags, placed_cons, List.mem_filter, List.mem_cons] at hq ⊢
      exact ⟨.inr hq.1, hq.2⟩
    · intro s hs t ht
      obtain ⟨hstart, hstop⟩ := bounds_leafSpans hpos.2 hs
      have := bounds_spansOf hks hf.tail ht
      exact ⟨by omega, .inl (by omega)⟩
  | @element o c inner rest ho hc hi hr ihi ihr =>
    have hpos := hf.head
    have hinner : Fits n (offset + o.length) inner := hf.tail.left
    have hclose := hf.tail.right.head
    have hrest : Fits n (offset + o.length + lengthOf inner + c.length) rest := hf.tail.right.tail
    simp only [closeTags, placed_cons, placed_append, List.mem_filter, List.mem_cons,
      List.mem_append] at htags
    rw [spansOf_element ho hc hi]
    refine List.pairwise_cons.mpr ⟨?_, List.pairwise_append.mpr ⟨ihi hinner ?_, ihr hrest ?_, ?_⟩⟩
    · intro t ht
      simp only [Precedes, elementSpan, Span.stopIn, Option.getD_some]
      rcases List.mem_append.mp ht with ht | ht
      · have := bounds_spansOf hi hinner ht
        refine ⟨by omega, .inr ⟨rfl, ⟨_, rfl, this.1⟩, (offset + o.length + lengthOf inner, c),
          htags _ ⟨.inr (.inr (.inl rfl)), hc⟩, rfl, this.2.2⟩⟩
      · have := bounds_spansOf hr hrest ht
        exact ⟨by omega, .inl (by omega)⟩
    · intro q hq
      simp only [closeTags, List.mem_filter] at hq
      exact htags q ⟨.inr (.inl hq.1), hq.2⟩
    · intro q hq
      simp only [closeTags, List.mem_filter] at hq
      exact htags q ⟨.inr (.inr (.inr hq.1)), hq.2⟩
    · intro s hs t ht
      have hs' := bounds_spansOf hi hinner hs
      have ht' := bounds_spansOf hr hrest ht
      exact ⟨by omega, .inl (by omega)⟩

/-! ## Elements and their tags -/

/-- The span `s` of an element, and the tokens it stands for: its two tags with balanced tokens between
them, or an empty tag. -/
inductive IsElement (offset : Nat) (ks : List Token) (s : Span) : Prop
  | pair (pre : List Token) (o : Token) (inner : List Token) (c : Token) (post : List Token) :
      ks = pre ++ o :: (inner ++ c :: post) → o.isStart → c.isClose → Balanced inner →
      s.start = offset + lengthOf pre → s.headEnd = some (s.start + o.length) →
      s.stop = some (s.start + o.length + lengthOf inner + c.length) → IsElement offset ks s
  | empty (pre : List Token) (k : Token) (post : List Token) :
      ks = pre ++ k :: post → k.form = .emptyTag → k.complete → s.start = offset + lengthOf pre →
      s.headEnd = some (s.start + k.length) → s.stop = some (s.start + k.length) →
      IsElement offset ks s

/-- Tokens before and behind the others move an element along. -/
theorem IsElement.append {offset : Nat} {ks : List Token} {s : Span} (before behind : List Token)
    (h : IsElement (offset + lengthOf before) ks s) :
    IsElement offset (before ++ ks ++ behind) s := by
  cases h with
  | pair pre o inner c post hks ho hc hi hstart hhead hstop =>
    refine .pair (before ++ pre) o inner c (post ++ behind) ?_ ho hc hi ?_ hhead hstop
    · simp [hks]
    · rw [hstart, lengthOf_append, Nat.add_assoc]
  | empty pre k post hks hf hc hstart hhead hstop =>
    refine .empty (before ++ pre) k (post ++ behind) ?_ hf hc ?_ hhead hstop
    · simp [hks]
    · rw [hstart, lengthOf_append, Nat.add_assoc]

theorem IsElement.ends {offset : Nat} {ks : List Token} {s : Span} (h : IsElement offset ks s) :
    s.headEnd.isSome ∧ s.stop.isSome := by
  cases h with
  | pair _ _ _ _ _ _ _ _ _ _ hhead hstop => simp [hhead, hstop]
  | empty _ _ _ _ _ _ _ hhead hstop => simp [hhead, hstop]

theorem isElement_of_leafSpans {sequence offset : Nat} {k : Token} (hk : k.isLeaf) {s : Span}
    (hs : s ∈ leafSpans sequence offset k) (hkind : s.kind = .element) :
    IsElement offset [k] s := by
  unfold leafSpans at hs
  cases hf : k.form <;> simp_all [Token.kind?, Token.isLeaf]
  case text => split at hs <;> simp_all
  case emptyTag => exact .empty [] k [] rfl hf hk rfl rfl rfl

theorem isElement_of_mem_spansOf {ks : List Token} (h : Balanced ks) {sequence offset : Nat}
    {s : Span} (hs : s ∈ spansOf sequence offset ks) (hkind : s.kind = .element) :
    IsElement offset ks s := by
  induction h generalizing sequence offset with
  | nil => simp [spansOf] at hs
  | @leaf k ks hk _ ih =>
    rw [spansOf_leaf hk, List.mem_append] at hs
    rcases hs with hs | hs
    · exact (isElement_of_leafSpans hk hs hkind : IsElement (offset + lengthOf []) [k] s).append [] ks
    · have := (ih hs : IsElement (offset + k.length) ks s)
      rw [show offset + k.length = offset + lengthOf [k] by simp] at this
      simpa using this.append [k] []
  | @element o c inner rest ho hc hi _ ihi ihr =>
    rw [spansOf_element ho hc hi, List.mem_cons, List.mem_append] at hs
    rcases hs with rfl | hs | hs
    · exact .pair [] o inner c rest rfl ho hc hi rfl rfl rfl
    · have := ihi hs
      rw [show offset + o.length = offset + lengthOf [o] by simp] at this
      simpa using this.append [o] (c :: rest)
    · have := ihr hs
      rw [show offset + o.length + lengthOf inner + c.length = offset + lengthOf (o :: (inner ++ [c]))
        by simp; omega] at this
      simpa using this.append (o :: (inner ++ [c])) []

/-- An element that is not written as one tag. -/
def Span.isPair (s : Span) : Bool := s.kind == .element && !s.isSelfClosing

theorem isElement_of_isPair {ks : List Token} (hb : Balanced ks) {sequence offset : Nat} {s : Span}
    (hs : s ∈ spansOf sequence offset ks) (hpair : s.isPair) :
    ∃ pre o inner c post, ks = pre ++ o :: (inner ++ c :: post) ∧ o.isStart ∧ c.isClose ∧
      Balanced inner ∧ s.start = offset + lengthOf pre ∧ s.headEnd = some (s.start + o.length) ∧
      s.stop = some (s.start + o.length + lengthOf inner + c.length) := by
  simp only [Span.isPair, Span.isSelfClosing, Bool.and_eq_true, beq_iff_eq] at hpair
  cases isElement_of_mem_spansOf hb hs hpair.1 with
  | pair pre o inner c post hks ho hc hi hstart hhead hstop =>
    exact ⟨pre, o, inner, c, post, hks, ho, hc, hi, hstart, hhead, hstop⟩
  | empty pre k post _ _ _ _ hhead hstop =>
    have := hpair.2
    simp [hpair.1, hhead, hstop] at this

/-- The elements that are not written as one tag have the close tags one by one. -/
theorem perm_closeTags {ks : List Token} (h : Balanced ks) {sequence offset : Nat}
    (hf : Fits n offset ks) :
    (((spansOf sequence offset ks).filter Span.isPair).map Span.stop).Perm
      ((closeTags offset ks).map fun q => some (q.1 + q.2.length)) := by
  induction h generalizing sequence offset with
  | nil => exact .nil
  | @leaf k ks hk _ ih =>
    have hleaf : (leafSpans sequence offset k).filter Span.isPair = [] := by
      rw [List.filter_eq_nil_iff]
      intro s hs
      by_cases hkind : s.kind = .element
      · cases isElement_of_leafSpans hk hs hkind with
        | pair pre o inner c post hks =>
          have := congrArg List.length hks
          simp only [List.length_append, List.length_cons, List.length_nil] at this
          omega
        | empty pre k post hks hf hc hstart hhead hstop =>
          simp [Span.isPair, Span.isSelfClosing, hkind, hhead, hstop]
      · simp [Span.isPair, hkind]
    have htags : closeTags offset (k :: ks) = closeTags (offset + k.length) ks := by
      simp [closeTags, Token.not_isClose_of_isLeaf hk]
    rw [spansOf_leaf hk, List.filter_append, hleaf, htags, List.nil_append]
    exact ih hf.tail
  | @element o c inner rest ho hc hi _ ihi ihr =>
    have hpos : 0 < c.length := hf.tail.right.head.1
    have hspan : (elementSpan sequence offset o inner c).isPair = true := by
      simp only [elementSpan, Span.isPair, Span.isSelfClosing]
      simp
      omega
    have htags : closeTags offset (o :: (inner ++ c :: rest)) =
        closeTags (offset + o.length) inner ++ (offset + o.length + lengthOf inner, c) ::
          closeTags (offset + o.length + lengthOf inner + c.length) rest := by
      simp [closeTags, Token.not_isClose_of_isStart ho, hc]
    rw [spansOf_element ho hc hi, List.filter_cons_of_pos hspan, List.filter_append, htags,
      List.map_cons, List.map_append, List.map_append, List.map_cons]
    exact ((ihi hf.tail.left).append (ihr hf.tail.right.tail)).cons _ |>.trans
      List.perm_middle.symm

/-! ## Unfinished spans -/

theorem kind_of_leafSpans_unfinished {sequence offset : Nat} {k : Token} (hk : k.isLeaf) {s : Span}
    (hs : s ∈ leafSpans sequence offset k) (hstop : s.stop = none) :
    s.kind ∈ [.comment, .cdataSection, .processingInstruction] := by
  unfold leafSpans at hs
  cases hf : k.form <;> cases hc : k.complete <;> simp_all [Token.kind?, Token.isLeaf]

theorem kind_of_unfinished {ks : List Token} (h : Balanced ks) {sequence offset : Nat} {s : Span}
    (hs : s ∈ spansOf sequence offset ks) (hstop : s.stop = none) :
    s.kind ∈ [.comment, .cdataSection, .processingInstruction] := by
  induction h generalizing sequence offset with
  | nil => simp [spansOf] at hs
  | leaf hk _ ih =>
    rw [spansOf_leaf hk, List.mem_append] at hs
    rcases hs with hs | hs
    · exact kind_of_leafSpans_unfinished hk hs hstop
    · exact ih hs
  | element ho hc hi _ ihi ihr =>
    rw [spansOf_element ho hc hi, List.mem_cons, List.mem_append] at hs
    rcases hs with rfl | hs | hs
    · exact absurd hstop (by simp [elementSpan])
    · exact ihi hs
    · exact ihr hs

/-! ## The tokens of a text fit it -/

theorem byteLength_pos {t : List Char} (h : t ≠ []) : 0 < byteLength t := by
  obtain ⟨c, t, rfl⟩ := List.exists_cons_of_ne_nil h
  exact Nat.add_pos_left c.utf8Size_pos _

theorem Token.Heads.text_append {t rest : List Char} {k : Token} (h : Heads t k rest) :
    k.text ++ rest = t := by
  have := next_append t
  rwa [h.next_eq] at this

theorem Token.Heads.text_ne_nil {t rest : List Char} {k : Token} (h : Heads t k rest) :
    k.text ≠ [] := by
  have := text_next_ne_nil h.ne_nil
  rwa [h.next_eq] at this

theorem Token.Tokenises.fits {t : List Char} {ks : List Token} (h : Tokenises t ks) (offset : Nat) :
    Fits (offset + byteLength t) offset ks := by
  induction h generalizing offset with
  | nil => intro p hp; simp at hp
  | @cons t rest k ks hk _ ih =>
    have hlen : byteLength t = k.length + byteLength rest := by
      rw [← hk.text_append, byteLength_append]
      rfl
    intro p hp
    rcases List.mem_cons.mp hp with rfl | hp
    · refine ⟨byteLength_pos hk.text_ne_nil, fun hc => ?_⟩
      rw [hlen, hk.rest_eq_nil hc]
      rfl
    · have := ih (offset + k.length) p hp
      rwa [Nat.add_assoc, ← hlen] at this

theorem fits_lex (source : List Char) : Fits (byteLength source) 0 (Token.lex source) := by
  have := (Token.tokenises_iff.mpr (rfl : Token.lex source = _)).fits 0
  rwa [Nat.zero_add] at this

/-! ## Spans that precede each other -/

/-- In a text of `n` bytes the span `outer` reaches around `inner`. -/
def Contains (n : Nat) (outer inner : Span) : Prop :=
  outer.start ≤ inner.start ∧ inner.stopIn n ≤ outer.stopIn n

section

variable {tags : List (Nat × Token)}

theorem Within.contains {s t : Span} (h : Within n tags s t) (hst : s.start < t.start) :
    Contains n s t := by
  obtain ⟨-, -, q, -, hq, hle⟩ := h
  have hstop : s.stopIn n = q.1 + q.2.length := by simp [Span.stopIn, hq]
  exact ⟨hst.le, by omega⟩

/-- An element that holds another span ends behind it. -/
theorem Within.stopIn_lt {s t : Span} (h : Within n tags s t) (htags : ∀ q ∈ tags, 0 < q.2.length) :
    t.stopIn n < s.stopIn n := by
  obtain ⟨-, -, q, hmem, hq, hle⟩ := h
  have hstop : s.stopIn n = q.1 + q.2.length := by simp [Span.stopIn, hq]
  have := htags q hmem
  omega

theorem Precedes.apart_or_contains {s t : Span} (h : Precedes n tags s t) :
    s.stopIn n ≤ t.start ∨ Contains n s t := by
  rcases h.2 with hle | hw
  · exact .inl hle
  · exact .inr (hw.contains h.1)

/-- A span that begins before another and is not apart from it contains it. -/
theorem Precedes.contains {s t : Span} (h : Precedes n tags s t) (hst : t.start < s.stopIn n) :
    Contains n s t := by
  rcases h.apart_or_contains with hle | hcon
  · omega
  · exact hcon

variable {spans : List Span} (hpair : spans.Pairwise (Precedes n tags))
  (hbound : ∀ s ∈ spans, s.start < s.stopIn n ∧ s.stopIn n ≤ n)

include hpair

theorem laminar_of_pairwise {i j : Nat} (hi : i < spans.length) (hj : j < spans.length) (hij : i ≠ j) :
    spans[i].stopIn n ≤ spans[j].start ∨ spans[j].stopIn n ≤ spans[i].start ∨
      Contains n spans[i] spans[j] ∨ Contains n spans[j] spans[i] := by
  rw [List.pairwise_iff_getElem] at hpair
  rcases Nat.lt_or_gt_of_ne hij with hij | hij
  · rcases (hpair i j hi hj hij).apart_or_contains with hle | hcon
    · exact .inl hle
    · exact .inr (.inr (.inl hcon))
  · rcases (hpair j i hj hi hij).apart_or_contains with hle | hcon
    · exact .inr (.inl hle)
    · exact .inr (.inr (.inr hcon))

include hbound

theorem within_of_contains {i j : Nat} (hi : i < spans.length) (hj : j < spans.length) (hij : i ≠ j)
    (hcon : Contains n spans[i] spans[j]) : Within n tags spans[i] spans[j] := by
  rw [List.pairwise_iff_getElem] at hpair
  obtain ⟨hne, -⟩ := hbound _ (List.getElem_mem hj)
  obtain ⟨hstart, hstop⟩ := hcon
  rcases Nat.lt_or_gt_of_ne hij with hij | hij
  · rcases (hpair i j hi hj hij).2 with hle | hw
    · omega
    · exact hw
  · have := (hpair j i hj hi hij).1
    omega

/-- An unfinished span ends at the end of the text, and no span begins there. -/
theorem last_of_unfinished {i : Nat} (hi : i < spans.length) (hstop : spans[i].stop = none) :
    i + 1 = spans.length := by
  rw [List.pairwise_iff_getElem] at hpair
  by_contra hne
  have hj : i + 1 < spans.length := by omega
  obtain ⟨hlt, hle⟩ := hbound _ (List.getElem_mem hj)
  have hend : spans[i].stopIn n = n := by simp [Span.stopIn, hstop]
  rcases (hpair i (i + 1) hi hj (Nat.lt_succ_self i)).2 with happart | ⟨-, -, q, -, hq, -⟩
  · omega
  · simp [hstop] at hq

/-- It lies in no span that has an end. -/
theorem stopIn_le_of_unfinished (htags : ∀ q ∈ tags, 0 < q.2.length) {i : Nat} (hi : i < spans.length)
    (hstop : spans[i].stop = none) {s : Span} (hs : s ∈ spans) (hs' : s.stop.isSome) :
    s.stopIn n ≤ spans[i].start := by
  have hlast := last_of_unfinished hpair hbound hi hstop
  rw [List.pairwise_iff_getElem] at hpair
  obtain ⟨j, hj, rfl⟩ := List.getElem_of_mem hs
  have hji : j ≠ i := by
    rintro rfl
    simp [hstop] at hs'
  rcases (hpair j i hj hi (by omega)).2 with hle | hw
  · exact hle
  · have hend : spans[i].stopIn n = n := by simp [Span.stopIn, hstop]
    have hlt := hw.stopIn_lt htags
    have := (hbound _ (List.getElem_mem hj)).2
    omega

end

/-- A span holds something and does not reach beyond its text. -/
theorem bounds_of_scan {source : List Char} {r : Scan} (h : scan source = .ok r) {s : Span}
    (hs : s ∈ r.spans) :
    s.start < s.stopIn (byteLength source) ∧ s.stopIn (byteLength source) ≤ byteLength source := by
  obtain ⟨hb, rfl⟩ := scan_eq_ok_iff.mp h
  have := bounds_spansOf hb (fits_lex source) (List.mem_toArray.mp hs)
  have := lengthOf_lex source
  omega

/-- Every element ends. -/
theorem ends_of_scan {source : List Char} {r : Scan} (h : scan source = .ok r) {s : Span}
    (hs : s ∈ r.spans) (hkind : s.kind = .element) : s.headEnd.isSome ∧ s.stop.isSome := by
  obtain ⟨hb, rfl⟩ := scan_eq_ok_iff.mp h
  exact (isElement_of_mem_spansOf hb (List.mem_toArray.mp hs) hkind).ends

/-! ## The forest -/

/-- The spans of a text and its tags nest as in a forest. -/
structure Forest (source : List Char) (spans : Array Span) : Prop where
  /-- Every element has both its ends. -/
  ends : ∀ s ∈ spans, s.kind = .element → s.headEnd.isSome ∧ s.stop.isSome
  balanced : IsDyck (Token.lex source)
  /-- An element written as two tags ends behind the close tag that matches its start tag: the tags
  between the two are balanced. -/
  matched : ∀ s ∈ spans, s.isPair → ∃ pre o inner c post,
    Token.lex source = pre ++ o :: (inner ++ c :: post) ∧ o.isStart ∧ c.isClose ∧ IsDyck inner ∧
      s.start = lengthOf pre ∧ s.headEnd = some (lengthOf (pre ++ [o])) ∧
      s.stop = some (lengthOf (pre ++ o :: (inner ++ [c])))
  /-- Such elements and the close tags are in bijection. -/
  closed : ((spans.toList.filter Span.isPair).map Span.stop).Perm
    ((closeTags 0 (Token.lex source)).map fun q => some (q.1 + q.2.length))
  /-- Two spans are apart, or one contains the other. -/
  laminar : ∀ i j (hi : i < spans.size) (hj : j < spans.size), i ≠ j →
    spans[i].stopIn (byteLength source) ≤ spans[j].start ∨
    spans[j].stopIn (byteLength source) ≤ spans[i].start ∨
    Contains (byteLength source) spans[i] spans[j] ∨ Contains (byteLength source) spans[j] spans[i]
  /-- Only elements contain others, and only between their tags. -/
  within : ∀ i j (hi : i < spans.size) (hj : j < spans.size), i ≠ j →
    Contains (byteLength source) spans[i] spans[j] →
    Within (byteLength source) (closeTags 0 (Token.lex source)) spans[i] spans[j]
  /-- The spans around an offset contain each other in their order. -/
  chain : ∀ p i j (hi : i < spans.size) (hj : j < spans.size), i < j →
    spans[i].encloses p (byteLength source) → spans[j].encloses p (byteLength source) →
    Contains (byteLength source) spans[i] spans[j]
  /-- Only the last span may have no end. It is no tag or text then, and lies in no element. -/
  unfinished : ∀ i (hi : i < spans.size), spans[i].stop = none → i + 1 = spans.size ∧
    spans[i].kind ∈ [.comment, .cdataSection, .processingInstruction] ∧
    ∀ s ∈ spans, s.kind = .element → s.stopIn (byteLength source) ≤ spans[i].start

/-- **The spans of a scan form a forest.** -/
theorem scan_forest {source : List Char} {s : Scan} (h : scan source = .ok s) :
    Forest source s.spans := by
  obtain ⟨hb, rfl⟩ := scan_eq_ok_iff.mp h
  have hfits := fits_lex source
  have htags : ∀ q ∈ closeTags 0 (Token.lex source), 0 < q.2.length := by
    intro q hq
    exact (hfits q (List.mem_of_mem_filter hq)).1
  have hpair : (spansOf 0 0 (Token.lex source)).Pairwise
      (Precedes (byteLength source) (closeTags 0 (Token.lex source))) :=
    pairwise_spansOf hb hfits fun q hq => hq
  have hbound : ∀ s ∈ spansOf 0 0 (Token.lex source),
      s.start < s.stopIn (byteLength source) ∧ s.stopIn (byteLength source) ≤ byteLength source :=
    fun s hs => bounds_of_scan h (List.mem_toArray.mpr hs)
  refine
    { ends := fun s hs hkind => ends_of_scan h hs hkind
      balanced := hb.isDyck
      matched := ?_
      closed := perm_closeTags hb hfits
      laminar := fun i j hi hj hij => laminar_of_pairwise hpair hi hj hij
      within := fun i j hi hj hij hcon => within_of_contains hpair hbound hi hj hij hcon
      chain := ?_
      unfinished := ?_ }
  · intro s hs hs'
    obtain ⟨pre, o, inner, c, post, hks, ho, hc, hi, hstart, hhead, hstop⟩ :=
      isElement_of_isPair hb (List.mem_toArray.mp hs) hs'
    rw [Nat.zero_add] at hstart
    refine ⟨pre, o, inner, c, post, hks, ho, hc, hi.isDyck, hstart, ?_, ?_⟩
    · simp [hhead, hstart]
    · simp [hstop, hstart, Nat.add_assoc]
  · intro p i j hi hj hij hpi hpj
    simp only [List.getElem_toArray, Span.encloses, Bool.and_eq_true, decide_eq_true_eq] at hpi hpj ⊢
    have hprecedes := List.pairwise_iff_getElem.mp hpair i j hi hj hij
    exact hprecedes.contains (Nat.lt_of_le_of_lt hpj.1 hpi.2)
  · intro i hi hstop
    refine ⟨last_of_unfinished hpair hbound hi hstop,
      kind_of_unfinished hb (List.getElem_mem hi) hstop, ?_⟩
    intro s hs hkind
    have hends := ends_of_scan h hs hkind
    exact stopIn_le_of_unfinished hpair hbound htags hi hstop (List.mem_toArray.mp hs) hends.2

/-- A comment without an end behind two nested elements. -/
theorem forest_unfinished_comment :
    Forest "<a><b/></a><!--".toList #[⟨0, .element, 0, some 3, some 11⟩,
      ⟨1, .element, 3, some 7, some 7⟩, ⟨2, .comment, 11, none, none⟩] :=
  scan_forest (s := ⟨_, .ofText "<a><b/></a><!--".toList⟩) (by cbv)

end XmlLocate
