import Mathlib.Order.Bounds.Basic
import XmlLocate.Proofs.Binding

/-!
# Locating nodes is a greedy matching

**Theorem (`correlate_greedy`).** Of the nodes that can be located, in document order, correlation binds
the first ones and no other. Each takes the first span of its kind behind the span taken before it, and
no assignment of spans to the first nodes that keeps the kinds and the order reaches further.

What a pass over nodes takes is described by `TakesFirst` (`assignRow_drop_indexed`). That no other
assignment reaches further is shown by staying ahead of it (`TakesFirst.le_of_isMatching`): the i-th
span taken never comes after the i-th span of the other.
-/

namespace XmlLocate

/-! ## Taking the first span -/

/-- The indexes from `low` on of the spans of a kind. -/
def indexesFrom (spans : Array Span) (kind : SpanKind) (low : Nat) : Set Nat :=
  {j | low ≤ j ∧ spans[j]?.map Span.kind = some kind}

theorem lt_size_of_mem_indexesFrom {spans : Array Span} {kind : SpanKind} {low j : Nat}
    (h : j ∈ indexesFrom spans kind low) : j < spans.size := by
  obtain ⟨s, hs, -⟩ := Option.map_eq_some_iff.mp h.2
  exact (Array.getElem?_eq_some_iff.mp hs).1

theorem indexesFrom_succ {spans : Array Span} {kind : SpanKind} {low : Nat}
    (h : spans[low]?.map Span.kind ≠ some kind) :
    indexesFrom spans kind low = indexesFrom spans kind (low + 1) := by
  ext j
  constructor
  · rintro ⟨hle, hj⟩
    have hne : low ≠ j := by
      rintro rfl
      exact h hj
    exact ⟨by omega, hj⟩
  · rintro ⟨hle, hj⟩
    exact ⟨by omega, hj⟩

theorem drop_indexed {spans : Array Span} {low : Nat} (h : low < spans.size) :
    (indexed spans).drop low = (low, spans[low]) :: (indexed spans).drop (low + 1) := by
  rw [List.drop_eq_getElem_cons (by simpa [indexed] using h)]
  simp [indexed]

/-- The next span of a kind is the one with the least index. -/
theorem nextOfKind?_drop_indexed (spans : Array Span) (kind : SpanKind) (low : Nat) :
    match nextOfKind? kind ((indexed spans).drop low) with
    | none => indexesFrom spans kind low = ∅
    | some (j, rest) =>
      IsLeast (indexesFrom spans kind low) j ∧ rest = (indexed spans).drop (j + 1) := by
  -- The spans behind `low` get fewer as it is passed.
  induction hn : spans.size - low generalizing low with
  | zero =>
    have hnil : (indexed spans).drop low = [] := by
      rw [List.drop_eq_nil_iff]
      simp [indexed]
      omega
    rw [hnil]
    refine Set.eq_empty_of_forall_notMem ?_
    intro j hj
    have := lt_size_of_mem_indexesFrom hj
    have := hj.1
    omega
  | succ n ih =>
    have hlow : low < spans.size := by omega
    rw [drop_indexed hlow, nextOfKind?]
    by_cases hk : spans[low].kind = kind
    · rw [if_pos hk]
      refine ⟨⟨⟨le_rfl, by simp [hlow, hk]⟩, ?_⟩, rfl⟩
      intro j hj
      exact hj.1
    · rw [if_neg hk, indexesFrom_succ (by simpa [hlow] using hk)]
      exact ih (low + 1) (by omega)

/-! ## Greedy matchings -/

/-- The index behind the one that was taken before the i-th, or `low` if it is the first. -/
def floorOf (low : Nat) (taken : List Nat) : Nat → Nat
  | 0 => low
  | i + 1 => taken[i]?.elim low (· + 1)

theorem floorOf_cons (low j : Nat) (taken : List Nat) {i : Nat} (hi : i ≤ taken.length) :
    floorOf low (j :: taken) (i + 1) = floorOf (j + 1) taken i := by
  cases i with
  | zero => rfl
  | succ i =>
    have : i < taken.length := hi
    simp [floorOf, this]

/-- Spans of the wanted kinds are taken one after another, from `low` on, always the first there is,
until none is left or no more are wanted. -/
structure TakesFirst (spans : Array Span) (low : Nat) (wanted : List SpanKind) (taken : List Nat) :
    Prop where
  length_le : taken.length ≤ wanted.length
  isLeast : ∀ i kind j, wanted[i]? = some kind → taken[i]? = some j →
    IsLeast (indexesFrom spans kind (floorOf low taken i)) j
  /-- The first kind for which none was taken has no span left. -/
  none_left : ∀ kind, wanted[taken.length]? = some kind →
    indexesFrom spans kind (floorOf low taken taken.length) = ∅

namespace TakesFirst

variable {spans : Array Span} {low : Nat} {wanted : List SpanKind} {taken : List Nat}

theorem nil (spans : Array Span) (low : Nat) : TakesFirst spans low [] [] :=
  ⟨le_rfl, by simp, by simp⟩

theorem stop {kind : SpanKind} (h : indexesFrom spans kind low = ∅) (wanted : List SpanKind) :
    TakesFirst spans low (kind :: wanted) [] := by
  refine ⟨Nat.zero_le _, by simp, ?_⟩
  rintro kind' hkind
  obtain rfl : kind = kind' := by simpa using hkind
  exact h

theorem cons {kind : SpanKind} {j : Nat} (hj : IsLeast (indexesFrom spans kind low) j)
    (h : TakesFirst spans (j + 1) wanted taken) :
    TakesFirst spans low (kind :: wanted) (j :: taken) := by
  refine ⟨Nat.succ_le_succ h.length_le, ?_, ?_⟩
  · intro i kind' j' hkind hj'
    cases i with
    | zero =>
      obtain rfl : kind = kind' := by simpa using hkind
      obtain rfl : j = j' := by simpa using hj'
      exact hj
    | succ i =>
      rw [List.getElem?_cons_succ] at hkind hj'
      have hi : i < taken.length := (List.getElem?_eq_some_iff.mp hj').1
      rw [floorOf_cons low j taken hi.le]
      exact h.isLeast i kind' j' hkind hj'
  · intro kind' hkind
    rw [List.length_cons, List.getElem?_cons_succ] at hkind
    rw [List.length_cons, floorOf_cons low j taken le_rfl]
    exact h.none_left kind' hkind

end TakesFirst

/-- A pass over nodes takes the first spans of their kinds. -/
theorem assignRow_drop_indexed (spans : Array Span) (nodes : List (SpanKind × Nat)) (low : Nat) :
    ∃ taken, TakesFirst spans low (nodes.map Prod.fst) taken ∧
      (assignRow nodes ((indexed spans).drop low)).1 = (nodes.map Prod.snd).zip taken := by
  induction nodes generalizing low with
  | nil => exact ⟨[], .nil spans low, rfl⟩
  | cons p nodes ih =>
    obtain ⟨wanted, id⟩ := p
    have hnext := nextOfKind?_drop_indexed spans wanted low
    rw [assignRow]
    cases hp : nextOfKind? wanted ((indexed spans).drop low) with
    | none =>
      rw [hp] at hnext
      exact ⟨[], .stop hnext _, rfl⟩
    | some q =>
      obtain ⟨j, rest⟩ := q
      rw [hp] at hnext
      obtain ⟨hj, rfl⟩ := hnext
      obtain ⟨taken, htaken, hrow⟩ := ih (j + 1)
      refine ⟨j :: taken, .cons hj htaken, ?_⟩
      dsimp only
      rw [hrow]
      rfl

/-! ## No assignment reaches further -/

/-- Spans of the wanted kinds, in their order, for as many of the kinds as there are indexes. -/
def IsMatching (spans : Array Span) (wanted : List SpanKind) (js : List Nat) : Prop :=
  js.Pairwise (· < ·) ∧
    List.Forall₂ (fun kind j => spans[j]?.map Span.kind = some kind) (wanted.take js.length) js

theorem IsMatching.exists_kind {spans : Array Span} {wanted : List SpanKind} {js : List Nat}
    (h : IsMatching spans wanted js) {i : Nat} (hi : i < js.length) :
    ∃ kind, wanted[i]? = some kind ∧ spans[js[i]]?.map Span.kind = some kind := by
  obtain ⟨hlen, hkinds⟩ := List.forall₂_iff_get.mp h.2
  have hi' : i < (wanted.take js.length).length := by omega
  refine ⟨(wanted.take js.length)[i], ?_, hkinds i hi' hi⟩
  rw [← List.getElem?_eq_getElem hi', List.getElem?_take_of_lt hi]

namespace TakesFirst

variable {spans : Array Span} {wanted : List SpanKind} {taken : List Nat}

theorem lt_of_succ {low : Nat} (h : TakesFirst spans low wanted taken) {i : Nat}
    (hi : i + 1 < taken.length) : taken[i] < taken[i + 1] := by
  have hwanted : i + 1 < wanted.length := Nat.lt_of_lt_of_le hi h.length_le
  have hleast := h.isLeast (i + 1) _ _ (List.getElem?_eq_getElem hwanted) (List.getElem?_eq_getElem hi)
  have hfloor : floorOf low taken (i + 1) = taken[i] + 1 := by
    simp [floorOf, Nat.lt_of_succ_lt hi]
  rw [hfloor] at hleast
  exact hleast.1.1

theorem isMatching {low : Nat} (h : TakesFirst spans low wanted taken) :
    IsMatching spans wanted taken := by
  have hlen : (wanted.take taken.length).length = taken.length := by
    rw [List.length_take, Nat.min_eq_left h.length_le]
  refine ⟨?_, List.forall₂_iff_get.mpr ⟨hlen, ?_⟩⟩
  · rw [← List.isChain_iff_pairwise, List.isChain_iff_getElem]
    intro i hi
    exact h.lt_of_succ hi
  · intro i hi hi'
    have hwanted : i < wanted.length := Nat.lt_of_lt_of_le hi' h.length_le
    rw [List.get_eq_getElem, List.get_eq_getElem, List.getElem_take]
    exact (h.isLeast i _ _ (List.getElem?_eq_getElem hwanted) (List.getElem?_eq_getElem hi')).1.2

/-- What a matching has at a place is not passed over if nothing behind it was taken before. -/
theorem exists_of_floorOf_le (h : TakesFirst spans 0 wanted taken) {js : List Nat}
    (hjs : IsMatching spans wanted js) {i : Nat} (hi : i < js.length) (hle : i ≤ taken.length)
    (hfloor : floorOf 0 taken i ≤ js[i]) : ∃ j, taken[i]? = some j ∧ j ≤ js[i] := by
  obtain ⟨kind, hkind, hj⟩ := hjs.exists_kind hi
  have hmem : js[i] ∈ indexesFrom spans kind (floorOf 0 taken i) := ⟨hfloor, hj⟩
  rcases Nat.lt_or_eq_of_le hle with hlt | rfl
  · have hleast := h.isLeast i kind _ hkind (List.getElem?_eq_getElem hlt)
    exact ⟨_, List.getElem?_eq_getElem hlt, hleast.2 hmem⟩
  · rw [h.none_left kind hkind] at hmem
    exact absurd hmem (Set.notMem_empty _)

/-- The spans taken stay ahead of those of any matching. -/
theorem le_of_isMatching (h : TakesFirst spans 0 wanted taken) {js : List Nat}
    (hjs : IsMatching spans wanted js) {i : Nat} (hi : i < js.length) :
    ∃ j, taken[i]? = some j ∧ j ≤ js[i] := by
  induction i with
  | zero => exact h.exists_of_floorOf_le hjs hi (Nat.zero_le _) (Nat.zero_le _)
  | succ i ih =>
    obtain ⟨j, hj, hle⟩ := ih (Nat.lt_of_succ_lt hi)
    have hlt : js[i] < js[i + 1] := List.pairwise_iff_getElem.mp hjs.1 i (i + 1) _ hi (Nat.lt_succ_self i)
    refine h.exists_of_floorOf_le hjs hi (List.getElem?_eq_some_iff.mp hj).1 ?_
    simp only [floorOf, hj, Option.elim_some]
    omega

theorem length_le_of_isMatching (h : TakesFirst spans 0 wanted taken) {js : List Nat}
    (hjs : IsMatching spans wanted js) : js.length ≤ taken.length := by
  cases hn : js.length with
  | zero => exact Nat.zero_le _
  | succ n =>
    obtain ⟨j, hj, -⟩ := h.le_of_isMatching hjs (i := n) (by omega)
    exact (List.getElem?_eq_some_iff.mp hj).1

end TakesFirst

/-! ## The matching -/

/-- The nodes of an outline are bound to the spans at the indexes `taken`, the first ones to one span
each. -/
structure BindsFirst (o : Outline) (spans : Array Span) (taken : List Nat) : Prop where
  /-- The k-th node takes the first span of its kind behind the span of the node before it. If there are
  fewer spans than nodes, none is left for the next node. -/
  takesFirst : TakesFirst spans 0 ((Outline.requests o.preorder).map Prod.fst) taken
  isMatching : IsMatching spans ((Outline.requests o.preorder).map Prod.fst) taken
  /-- No other assignment of spans to the first nodes reaches further. -/
  longest : ∀ js, IsMatching spans ((Outline.requests o.preorder).map Prod.fst) js →
    js.length ≤ taken.length
  bound : o.bound spans = ((Outline.requests o.preorder).map Prod.snd).zip taken
  /-- Of the nodes that share an identity the last one counts. -/
  last : ∀ id j : Nat, (correlate o spans)[id]? = some j ↔
    ∃ before after, o.bound spans = before ++ (id, j) :: after ∧ id ∉ after.map Prod.fst
  lt_size : ∀ id j : Nat, (correlate o spans)[id]? = some j → j < spans.size

/-- **Correlation is the greedy matching of nodes and spans**, and that is a longest one. What it binds
has a location in every text with these spans. -/
theorem correlate_greedy (o : Outline) (spans : Array Span) :
    ∃ taken, BindsFirst o spans taken ∧
      ∀ source lines, let t := LocatedText.mk source spans lines (correlate o spans)
        t.boundCount = ((o.bound spans).map Prod.fst).dedup.length ∧
        ∀ id, t.isBound id = (t.location? id).isSome := by
  obtain ⟨taken, htaken, hbound⟩ := assignRow_drop_indexed spans (Outline.requests o.preorder) 0
  rw [List.drop_zero, ← assign_eq_assignRow] at hbound
  have hlt : ∀ id j : Nat, (correlate o spans)[id]? = some j → j < spans.size := by
    intro id j h
    obtain ⟨before, after, hsplit, -⟩ := (getElem?_correlate o spans).mp h
    have hmem : (id, j) ∈ ((Outline.requests o.preorder).map Prod.snd).zip taken := by
      rw [← hbound, show (o.assign (indexed spans)).1 = _ from hsplit]
      simp
    obtain ⟨i, hi, rfl⟩ := List.getElem_of_mem (List.of_mem_zip hmem).2
    obtain ⟨kind, -, hkind⟩ := htaken.isMatching.exists_kind hi
    have hmem : taken[i] ∈ indexesFrom spans kind 0 := ⟨Nat.zero_le _, hkind⟩
    exact lt_size_of_mem_indexesFrom hmem
  refine ⟨taken, ⟨htaken, htaken.isMatching, fun js => htaken.length_le_of_isMatching, hbound,
    fun id j => getElem?_correlate o spans, hlt⟩, ?_⟩
  intro source lines
  refine ⟨size_correlate o spans, ?_⟩
  intro id
  show (correlate o spans).contains id = ((correlate o spans)[id]?.bind _).isSome
  rw [← Std.TreeMap.isSome_getElem?_eq_contains]
  cases h : (correlate o spans)[id]? with
  | none => rfl
  | some j => simp [LocatedText.spanLocation?, hlt id j h]

/-- Character data without a run of text to be bound to passes over all spans, and the element behind it
is not bound either. -/
example :
    (Outline.node .element 0 [.node .cdataSection 1 [], .node .element 2 []]).bound
      #[⟨0, .element, 0, some 3, some 11⟩, ⟨1, .element, 3, some 7, some 7⟩] = [(0, 0)] := by
  decide

end XmlLocate
