import XmlLocate.Proofs.Binding
import XmlLocate.Proofs.Fragments
import XmlLocate.Proofs.OrderedTrees

/-!
# The tree of the elements in a text

**Theorem (`exists_containmentTree`).** The element spans of a scan that lie in the first of them form one
tree under containment. It has them in the order of the scan, each between the tags of those above it, and
spans beside each other are apart and in order.

The spans are sorted by where they begin, so those below a span are the ones that follow it until one
begins behind its end (`containmentTrees`). Everything else is a matter of how two spans can lie to each
other (`Precedes`).
-/

namespace XmlLocate

instance (n : Nat) (outer inner : Span) : Decidable (Contains n outer inner) :=
  inferInstanceAs (Decidable (_ ∧ _))

/-- The tree `t` is made of the first of the spans and those in it: below each span are the spans that it
contains, in their order. -/
structure IsContainmentTree (n : Nat) (spans : List Span) (t : OrderedTree Span) : Prop where
  first : spans.head? = some t.label
  /-- The first span lies in no other. -/
  outermost : ∀ s ∈ spans, Contains n s t.label → s = t.label
  below : ∀ u ∈ t.subtrees, u.labels = spans.filter (Contains n u.label ·)

theorem IsContainmentTree.unique {n : Nat} {spans : List Span} {t u : OrderedTree Span}
    (ht : IsContainmentTree n spans t) (hu : IsContainmentTree n spans u) : t = u := by
  refine OrderedTree.eq_of_forall_labels_eq (f := fun s => spans.filter (Contains n s ·)) ht.below
    hu.below ?_
  exact Option.some.inj (ht.first.symm.trans hu.first)

/-! ## Trees of sorted spans -/

/-- The trees of spans that are sorted by where they begin: below each are those that begin before its
end. -/
def containmentTrees (n : Nat) : List Span → List (OrderedTree Span)
  | [] => []
  | s :: ss =>
    .node s (containmentTrees n (ss.takeWhile (·.start < s.stopIn n))) ::
      containmentTrees n (ss.dropWhile (·.start < s.stopIn n))
termination_by ss => ss.length
decreasing_by
  · exact Nat.lt_succ_of_le (List.takeWhile_sublist _).length_le
  · exact Nat.lt_succ_of_le (List.dropWhile_sublist _).length_le

theorem labelsAll_containmentTrees (n : Nat) (ss : List Span) :
    OrderedTree.labelsAll (containmentTrees n ss) = ss := by
  fun_induction containmentTrees n ss with
  | case1 => rw [OrderedTree.labelsAll]
  | case2 s ss ihbelow ihbehind =>
    rw [OrderedTree.labelsAll, OrderedTree.labels, ihbelow, ihbehind, List.cons_append,
      List.takeWhile_append_dropWhile]

/-- `inner` lies between the tags of the element `outer`. -/
def Inside (n : Nat) (outer inner : Span) : Prop :=
  outer.start < inner.start ∧ inner.stopIn n < outer.stopIn n ∧
    ∃ h, outer.headEnd = some h ∧ h ≤ inner.start

/-- `s` ends before `t` begins, and neither is empty. -/
def Before (n : Nat) (s t : Span) : Prop :=
  s.start < s.stopIn n ∧ s.stopIn n ≤ t.start ∧ t.start < t.stopIn n

theorem separates_contains (n : Nat) :
    OrderedTree.Separates (fun s t => Contains n s t) (Inside n) (Before n) := by
  refine ⟨?_, ?_, ?_⟩ <;> simp only [decide_eq_true_eq] <;> unfold Contains
  · intro s
    exact ⟨le_rfl, le_rfl⟩
  · rintro s t ⟨hstart, hstop, -⟩
    omega
  · rintro s t ⟨hs, hst, ht⟩
    omega

theorem mem_dropWhile_start {ss : List Span} (h : ss.Pairwise fun s t => s.start < t.start) {b : Nat}
    {s : Span} (hs : s ∈ ss.dropWhile (·.start < b)) : b ≤ s.start := by
  by_contra hlt
  have hmem := (mem_takeWhile_start h).mpr ⟨(List.dropWhile_sublist _).mem hs, Nat.lt_of_not_le hlt⟩
  rw [← List.takeWhile_append_dropWhile (p := (·.start < b)) (l := ss), List.pairwise_append] at h
  exact Nat.lt_irrefl _ (h.2.2 s hmem s hs)

section

variable {n : Nat} {tags : List (Nat × Token)} (htags : ∀ q ∈ tags, 0 < q.2.length)

include htags

theorem Precedes.inside {s t : Span} (h : Precedes n tags s t) (hst : t.start < s.stopIn n) :
    Inside n s t := by
  rcases h.2 with hle | hw
  · omega
  · exact ⟨h.1, hw.stopIn_lt htags, hw.2.1⟩

theorem layeredAll_containmentTrees {ss : List Span} (hpair : ss.Pairwise (Precedes n tags))
    (hpos : ∀ s ∈ ss, s.start < s.stopIn n) :
    OrderedTree.LayeredAll (Inside n) (Before n) (containmentTrees n ss) := by
  fun_induction containmentTrees n ss with
  | case1 => trivial
  | case2 s ss ihbelow ihbehind =>
    obtain ⟨hs, hss⟩ := List.pairwise_cons.mp hpair
    have hstart : ss.Pairwise fun s t => s.start < t.start := hss.imp And.left
    have hbelow : ∀ t ∈ ss.takeWhile (·.start < s.stopIn n), Inside n s t := by
      intro t ht
      rw [mem_takeWhile_start hstart] at ht
      exact (hs t ht.1).inside htags ht.2
    have hmem : ∀ t ∈ ss, t.start < t.stopIn n := fun t ht => hpos t (List.mem_cons_of_mem _ ht)
    rw [OrderedTree.LayeredAll, OrderedTree.Layered, OrderedTree.labels, labelsAll_containmentTrees,
      labelsAll_containmentTrees]
    refine ⟨⟨hbelow, ihbelow (hss.sublist (List.takeWhile_sublist _))
      fun t ht => hmem t ((List.takeWhile_sublist _).mem ht)⟩, ?_,
      ihbehind (hss.sublist (List.dropWhile_sublist _))
      fun t ht => hmem t ((List.dropWhile_sublist _).mem ht)⟩
    intro a ha b hb
    have hle := mem_dropWhile_start hstart hb
    have hbpos := hmem b ((List.dropWhile_sublist _).mem hb)
    rcases List.mem_cons.mp ha with rfl | ha
    · exact ⟨hpos _ (List.mem_cons_self ..), hle, hbpos⟩
    · have := (hbelow a ha).2.1
      exact ⟨hmem a ((List.takeWhile_sublist _).mem ha), by omega, hbpos⟩

end

/-! ## The tree of a scan -/

/-- **The elements in the first element of a text form a tree**, and only one. -/
theorem exists_containmentTree {source : List Char} {s : Scan} (h : scan source = .ok s)
    (hne : s.elementSpans ≠ []) :
    ∃ t, IsContainmentTree (byteLength source) s.elementSpans t ∧
      t.Layered (Inside (byteLength source)) (Before (byteLength source)) ∧
      t.labels <+: s.elementSpans := by
  obtain ⟨hb, hs⟩ := scan_eq_ok_iff.mp h
  have hfits := fits_lex source
  have hspans : s.spans.toList = spansOf 0 0 (Token.lex source) := by rw [hs]
  have hsub : s.elementSpans.Sublist s.spans.toList := List.filter_sublist
  have htags : ∀ q ∈ closeTags 0 (Token.lex source), 0 < q.2.length := by
    intro q hq
    exact (hfits q (List.mem_of_mem_filter hq)).1
  have hpair : s.elementSpans.Pairwise (Precedes (byteLength source) (closeTags 0 (Token.lex source))) := by
    refine List.Pairwise.sublist hsub ?_
    rw [hspans]
    exact pairwise_spansOf hb hfits fun q hq => hq
  have hpos : ∀ s' ∈ s.elementSpans, s'.start < s'.stopIn (byteLength source) :=
    fun s' hs' => (bounds_of_scan h (Array.mem_toList_iff.mp (hsub.mem hs'))).1
  have hlayered := layeredAll_containmentTrees htags hpair hpos
  have hlabels := labelsAll_containmentTrees (byteLength source) s.elementSpans
  obtain ⟨first, rest, hfirst⟩ := List.exists_cons_of_ne_nil hne
  rw [hfirst] at hpair hlayered hlabels ⊢
  rw [containmentTrees] at hlayered hlabels
  refine ⟨_, ⟨rfl, ?_, ?_⟩, hlayered.1, ?_⟩
  · intro s' hs' hcon
    rcases List.mem_cons.mp hs' with rfl | hs'
    · rfl
    · have := (List.rel_of_pairwise_cons hpair hs').1
      exact absurd hcon.1 (Nat.not_le_of_lt this)
  · intro u hu
    have hfilter := OrderedTree.labels_eq_filter_labelsAll (separates_contains _) hlayered
      (u := u) (by rw [OrderedTree.subtreesAll]; exact List.mem_append_left _ hu)
    rwa [hlabels] at hfilter
  · rw [OrderedTree.labelsAll] at hlabels
    exact ⟨_, hlabels⟩

end XmlLocate
