import XmlLocate.Proofs.Nesting

/-!
# A scan is a tokenisation

**Theorem (`scan_tokenises`).** The text of a scan that succeeds is cut into tokens in exactly one
way, its tokens are complete but for a last one that runs to the end of the text, and the spans of
the scan describe the tokens that have one, in order.

The description is `Describes`. It is proved by induction on balanced tokens, from the two equations
that give the spans of a leaf and of an element (`spansOf_leaf`, `spansOf_element`).
-/

namespace XmlLocate

/-! ## Tokens in their places -/

/-- Tokens with the offsets at which they begin, the first at `offset`. -/
def placed (offset : Nat) : List Token → List (Nat × Token)
  | [] => []
  | k :: ks => (offset, k) :: placed (offset + k.length) ks

@[simp] theorem placed_nil (offset : Nat) : placed offset [] = [] := rfl

@[simp] theorem placed_cons (offset : Nat) (k : Token) (ks : List Token) :
    placed offset (k :: ks) = (offset, k) :: placed (offset + k.length) ks := rfl

@[simp] theorem placed_append (offset : Nat) (xs ys : List Token) :
    placed offset (xs ++ ys) = placed offset xs ++ placed (offset + lengthOf xs) ys := by
  induction xs generalizing offset with
  | nil => rfl
  | cons k ks ih => simp [ih, Nat.add_assoc]

/-- The tokens that have a span, in their places. -/
def owners (offset : Nat) (ks : List Token) : List (Nat × Token) :=
  (placed offset ks).filter fun p => p.2.kind?.isSome

theorem owners_append (offset : Nat) (xs ys : List Token) :
    owners offset (xs ++ ys) = owners offset xs ++ owners (offset + lengthOf xs) ys := by
  simp [owners]

theorem owners_cons (offset : Nat) (k : Token) (ks : List Token) :
    owners offset (k :: ks) = owners offset [k] ++ owners (offset + k.length) ks := by
  simpa using owners_append offset [k] ks

/-- The span `s` tells where a token stands. The end of an element with content is that of a close
tag among the tokens in `all`. -/
structure Describes (all : List (Nat × Token)) (p : Nat × Token) (s : Span) : Prop where
  kind : p.2.kind? = some s.kind
  start : s.start = p.1
  headEnd : s.headEnd = if s.kind = .element then some (p.1 + p.2.length) else none
  stop : p.2.form ≠ .startTag → s.stop = if p.2.complete then some (p.1 + p.2.length) else none
  close : p.2.form = .startTag →
    ∃ q ∈ all, q.2.isClose ∧ p.1 + p.2.length ≤ q.1 ∧ s.stop = some (q.1 + q.2.length)

theorem describes_leafSpans {k : Token} (hk : k.isLeaf) (all : List (Nat × Token))
    (sequence offset : Nat) :
    List.Forall₂ (Describes all) (owners offset [k]) (leafSpans sequence offset k) := by
  obtain ⟨hf, -⟩ := Token.form_ne_of_isLeaf hk
  unfold leafSpans
  cases hkind : k.kind? with
  | none => simp [owners, hkind]
  | some kind =>
    have howners : owners offset [k] = [(offset, k)] := by simp [owners, hkind]
    rw [howners]
    exact .cons ⟨hkind, rfl, rfl, fun _ => rfl, fun h => absurd h hf⟩ .nil

theorem describes_spansOf {ks : List Token} (h : Balanced ks) (sequence offset : Nat)
    {all : List (Nat × Token)} (hall : ∀ q ∈ placed offset ks, q ∈ all) :
    List.Forall₂ (Describes all) (owners offset ks) (spansOf sequence offset ks) := by
  induction h generalizing sequence offset with
  | nil => exact .nil
  | @leaf k ks hk _ ih =>
    rw [owners_cons, spansOf_leaf hk]
    refine List.rel_append (describes_leafSpans hk all sequence offset) (ih _ _ ?_)
    intro q hq
    exact hall q (List.mem_cons_of_mem _ hq)
  | @element o c inner rest ho hc hi _ ihi ihr =>
    have hform := Token.form_of_isStart ho
    have howners : owners offset (o :: (inner ++ c :: rest)) =
        (offset, o) :: (owners (offset + o.length) inner ++
          owners (offset + o.length + lengthOf inner + c.length) rest) := by
      simp [owners, Token.kind?, hform, Token.form_of_isClose hc]
    simp only [placed_cons, placed_append, List.mem_cons, List.mem_append] at hall
    rw [howners, spansOf_element ho hc hi]
    refine .cons ⟨by simp [Token.kind?, hform, elementSpan], rfl, rfl, fun h => absurd hform h,
      fun _ => ?_⟩ (List.rel_append (ihi _ _ fun q hq => hall q (.inr (.inl hq)))
        (ihr _ _ fun q hq => hall q (.inr (.inr (.inr hq)))))
    exact ⟨(offset + o.length + lengthOf inner, c), hall _ (.inr (.inr (.inl rfl))), hc,
      Nat.le_add_right _ _, rfl⟩

theorem sequence_spansOf {ks : List Token} (sequence offset i : Nat)
    (hi : i < (spansOf sequence offset ks).length) :
    (spansOf sequence offset ks)[i].sequence = sequence + i := by
  induction ks generalizing sequence offset i with
  | nil => simp [spansOf] at hi
  | cons k ks ih =>
    cases hk : k.kind? with
    | none =>
      simp only [spansOf, hk] at hi ⊢
      exact ih _ _ _ hi
    | some kind =>
      simp only [spansOf, hk] at hi ⊢
      cases i with
      | zero => rfl
      | succ i =>
        simp only [List.length_cons, Nat.add_lt_add_iff_right] at hi
        rw [List.getElem_cons_succ, ih _ _ _ hi]
        omega

/-! ## Unfinished tokens -/

theorem Balanced.form_of_unfinished {ks : List Token} (h : Balanced ks) {k : Token} (hk : k ∈ ks)
    (hc : k.complete = false) : k.form ∈ [.text, .comment, .cdata, .instruction] := by
  induction h with
  | nil => simp at hk
  | @leaf j ks hj _ ih =>
    rcases List.mem_cons.mp hk with rfl | hk
    · cases hf : k.form <;> simp_all [Token.isLeaf]
    · exact ih hk
  | @element o c inner rest ho hc' _ _ ihi ihr =>
    rcases List.mem_cons.mp hk with rfl | hk
    · simp_all [Token.isStart]
    rcases List.mem_append.mp hk with hk | hk
    · exact ihi hk
    rcases List.mem_cons.mp hk with rfl | hk
    · simp_all [Token.isClose]
    · exact ihr hk

theorem Settled.getLast?_of_unfinished {ks : List Token} (h : Settled ks) {k : Token} (hk : k ∈ ks)
    (hc : k.complete = false) : ks.getLast? = some k := by
  have hne : ks ≠ [] := List.ne_nil_of_mem hk
  rw [← List.dropLast_append_getLast hne, List.mem_append] at hk
  rcases hk with hk | hk
  · rw [h.1 k hk] at hc
    exact absurd hc (by simp)
  · rw [List.mem_singleton.mp hk, List.getLast?_eq_some_getLast hne]

/-- **A scan is a tokenisation.** The tokens of the text are what the grammar says and nothing else;
only text, a comment, a CDATA section or a processing instruction can be unfinished, at the end; and
the spans describe the tokens other than close tags and text at the end. -/
theorem scan_tokenises {source : List Char} {s : Scan} (h : scan source = .ok s) :
    ∃ ks, Token.Tokenises source ks ∧ (∀ ks', Token.Tokenises source ks' → ks' = ks) ∧
      ks.flatMap Token.text = source ∧
      (∀ k ∈ ks, k.complete = false →
        ks.getLast? = some k ∧ k.form ∈ [.text, .comment, .cdata, .instruction]) ∧
      List.Forall₂ (Describes (placed 0 ks)) (owners 0 ks) s.spans.toList ∧
      ∀ i (hi : i < s.spans.size), s.spans[i].sequence = i := by
  obtain ⟨hb, rfl⟩ := scan_eq_ok_iff.mp h
  refine ⟨Token.lex source, Token.tokenises_iff.mpr rfl,
    fun ks' h' => (Token.tokenises_iff.mp h').symm, Token.texts_lex source, ?_, ?_, ?_⟩
  · intro k hk hc
    exact ⟨(settled_lex source).getLast?_of_unfinished hk hc, hb.form_of_unfinished hk hc⟩
  · exact describes_spansOf hb 0 0 fun _ hq => hq
  · intro i hi
    have := sequence_spansOf 0 0 i (by simpa using hi)
    simpa using this

/-- A comment that only seems to end within its mark, and runs to the end of the text. -/
theorem tokenises_unfinished_comment :
    ∃ ks, Token.Tokenises "<a>]]></a><!-->".toList ks ∧
      ks.flatMap Token.text = "<a>]]></a><!-->".toList ∧
      List.Forall₂ (Describes (placed 0 ks)) (owners 0 ks)
        [⟨0, .element, 0, some 3, some 10⟩, ⟨1, .text, 3, none, some 6⟩,
          ⟨2, .comment, 10, none, none⟩] := by
  obtain ⟨ks, hks, -, htext, -, hspans, -⟩ := @scan_tokenises "<a>]]></a><!-->".toList
    ⟨#[⟨0, .element, 0, some 3, some 10⟩, ⟨1, .text, 3, none, some 6⟩,
      ⟨2, .comment, 10, none, none⟩], .ofText "<a>]]></a><!-->".toList⟩ (by cbv)
  exact ⟨ks, hks, htext, hspans⟩

end XmlLocate
