import Mathlib.Order.Nat
import XmlLocate.Scan.Bytes.Turns

/-!
# The states of a scan of bytes

`Scanner.Consistent` is what holds whenever the next byte is looked for: of the offsets (where the text
and the markup begin, none behind `pos`), of the spans (in order, and filled in but for the open ones and
the current one), of the stack (the open elements and no others) and of the span that is current.

**Theorem (`Scanner.Reachable.consistent`).** Every state in which a turn begins is consistent, whatever
the bytes are.

A jump to the next byte that matters keeps that (`Consistent.skipInert`), and so does what a turn can do,
case by case (`Consistent.turn`). What a turn does to the spans is said by `Recorded` alone: they grow at
the end (`Recorded.push`), and one of them is filled in (`Recorded.set`).
-/

namespace XmlLocate

/-! ## Recorded spans -/

/-- A start tag was read, and its element is still open. -/
def Span.IsOpen (s : Span) : Prop := s.kind = .element ∧ s.headEnd.isSome ∧ s.stop = none

/-- Nothing more is to be recorded of the span. -/
def Span.IsEnded (s : Span) : Prop := s.stop.isSome ∧ (s.kind = .element → s.headEnd.isSome)

/-- Spans as they are recorded in the order of a scan, of which some are open and one may be current. -/
structure Recorded (spans : Array Span) (opened : List Nat) (current : Option Nat) : Prop where
  sequence : ∀ (i : Nat) s, spans[i]? = some s → s.sequence = i
  increasing : (spans.toList.map Span.start).Pairwise (· < ·)
  /-- The innermost element begins last. -/
  opened_decreasing : opened.Pairwise (· > ·)
  opened_iff : ∀ i, i ∈ opened ↔ ∃ s, spans[i]? = some s ∧ s.IsOpen
  current_last : ∀ i, current = some i → i + 1 = spans.size
  current_bare : ∀ (i : Nat) s, current = some i → spans[i]? = some s → s.headEnd = none ∧ s.stop = none
  ended : ∀ (i : Nat) s, spans[i]? = some s → i ∉ opened → current ≠ some i → s.IsEnded

namespace Recorded

variable {spans : Array Span} {opened : List Nat} {current : Option Nat}

theorem empty : Recorded #[] [] none where
  sequence := by simp
  increasing := by simp
  opened_decreasing := .nil
  opened_iff := by simp
  current_last := by simp
  current_bare := by simp
  ended := by simp

theorem lt_size_of_mem (h : Recorded spans opened current) {i : Nat} (hi : i ∈ opened) :
    i < spans.size := by
  obtain ⟨s, hs, -⟩ := (h.opened_iff i).mp hi
  exact (Array.getElem?_eq_some_iff.mp hs).1

theorem notMem_of_current {i : Nat} (h : Recorded spans opened (some i)) : i ∉ opened := by
  intro hi
  obtain ⟨s', hs', -, hhead, -⟩ := (h.opened_iff i).mp hi
  obtain ⟨hbare, -⟩ := h.current_bare i s' rfl hs'
  simp [hbare] at hhead

/-- A span is recorded behind the others. -/
theorem push (h : Recorded spans opened none) {kind : SpanKind} {start : Nat} {stop : Option Nat}
    (hstart : ∀ s ∈ spans, s.start < start) (hkind : stop.isSome → kind ≠ .element) :
    Recorded (spans.push ⟨spans.size, kind, start, none, stop⟩) opened
      (if stop.isSome then none else some spans.size) where
  sequence := by
    intro i s hs
    rw [Array.getElem?_push] at hs
    split at hs
    next hi => rw [← Option.some.inj hs, hi]
    next => exact h.sequence i s hs
  increasing := by
    rw [Array.toList_push, List.map_append]
    refine List.pairwise_append.mpr ⟨h.increasing, List.pairwise_singleton _ _, ?_⟩
    intro a ha b hb
    obtain ⟨s, hs, rfl⟩ := List.mem_map.mp ha
    obtain rfl : b = start := by simpa using hb
    exact hstart s (Array.mem_toList_iff.mp hs)
  opened_decreasing := h.opened_decreasing
  opened_iff := by
    intro i
    rw [h.opened_iff, Array.getElem?_push]
    split
    next hi => simp [hi, Span.IsOpen]
    next => rfl
  current_last := by
    intro i hi
    split at hi
    · cases hi
    · rw [← Option.some.inj hi, Array.size_push]
  current_bare := by
    intro i s hi hs
    split at hi
    next => cases hi
    next hstop =>
      obtain rfl := Option.some.inj hi
      rw [Array.getElem?_push_size] at hs
      rw [← Option.some.inj hs]
      exact ⟨rfl, by simpa using hstop⟩
  ended := by
    intro i s hs hi hcurrent
    rw [Array.getElem?_push] at hs
    split at hs
    next hsize =>
      obtain rfl := Option.some.inj hs
      split at hcurrent
      next hstop => exact ⟨hstop, fun hk => absurd hk (hkind hstop)⟩
      next => exact absurd (congrArg some hsize.symm) hcurrent
    next => exact h.ended i s hs hi (by simp)

theorem getElem?_set {i j : Nat} {s s' t : Span} (hs : spans[i]? = some s) :
    (spans.setIfInBounds i s')[j]? = some t ↔ j = i ∧ s' = t ∨ j ≠ i ∧ spans[j]? = some t := by
  obtain ⟨hlt, -⟩ := Array.getElem?_eq_some_iff.mp hs
  rw [Array.getElem?_setIfInBounds]
  by_cases hij : i = j
  · subst hij
    simp [hlt]
  · simp [hij, Ne.symm hij]

/-- More is recorded of a span, and none is current any more. -/
theorem set {i : Nat} {s s' : Span} {opened' : List Nat} (h : Recorded spans opened current)
    (hs : spans[i]? = some s) (hcurrent : ∀ j, current = some j → j = i)
    (hsequence : s'.sequence = s.sequence) (hstart : s'.start = s.start)
    (hdecreasing : opened'.Pairwise (· > ·)) (hopened : ∀ j ≠ i, j ∈ opened' ↔ j ∈ opened)
    (hi : i ∈ opened' ↔ s'.IsOpen) (hended : i ∉ opened' → s'.IsEnded) :
    Recorded (spans.setIfInBounds i s') opened' none where
  sequence := by
    intro j t ht
    rcases (getElem?_set hs).mp ht with ⟨rfl, rfl⟩ | ⟨-, ht⟩
    · rw [hsequence, h.sequence j s hs]
    · exact h.sequence j t ht
  increasing := by
    obtain ⟨hlt, rfl⟩ := Array.getElem?_eq_some_iff.mp hs
    have hstarts : (spans.toList.set i s').map Span.start = spans.toList.map Span.start := by
      rw [List.map_set, hstart]
      refine (congrArg _ ?_).trans (List.set_getElem_self (i := i) (by simpa using hlt))
      simp
    rw [Array.toList_setIfInBounds, hstarts]
    exact h.increasing
  opened_decreasing := hdecreasing
  opened_iff := by
    intro j
    simp only [getElem?_set hs]
    by_cases hj : j = i
    · subst hj
      simp [hi]
    · simp [hopened j hj, h.opened_iff, hj]
  current_last := by simp
  current_bare := by simp
  ended := by
    intro j t ht hj _
    rcases (getElem?_set hs).mp ht with ⟨rfl, rfl⟩ | ⟨hne, ht⟩
    · exact hended hj
    · rw [hopened j hne] at hj
      exact h.ended j t ht hj fun hc => hne (hcurrent j hc)

/-- Nothing but the head of a current span is recorded: the span becomes the innermost open one. -/
theorem openCurrent {i p : Nat} {s : Span} (h : Recorded spans opened (some i))
    (hs : spans[i]? = some s) (hkind : s.kind = .element) :
    Recorded (spans.setIfInBounds i { s with headEnd := some p }) (i :: opened) none := by
  obtain ⟨-, hstop⟩ := h.current_bare i s rfl hs
  have hlast := h.current_last i rfl
  refine h.set hs (fun j hj => (Option.some.inj hj).symm) rfl rfl ?_ ?_ ?_ ?_
  · refine List.pairwise_cons.mpr ⟨?_, h.opened_decreasing⟩
    intro j hj
    have hne : j ≠ i := by
      rintro rfl
      exact h.notMem_of_current hj
    have := h.lt_size_of_mem hj
    omega
  · intro j hj
    simp [hj]
  · exact iff_of_true List.mem_cons_self ⟨hkind, rfl, hstop⟩
  · exact fun hi => absurd List.mem_cons_self hi

/-- The current span ends. -/
theorem endCurrent {i p : Nat} {s : Span} {headEnd : Option Nat} (h : Recorded spans opened (some i))
    (hs : spans[i]? = some s) (hkind : s.kind = .element → headEnd.isSome) :
    Recorded (spans.setIfInBounds i { s with headEnd, stop := some p }) opened none := by
  refine h.set hs (fun j hj => (Option.some.inj hj).symm) rfl rfl h.opened_decreasing
    (fun _ _ => Iff.rfl) ?_ ?_
  · exact iff_of_false (h.notMem_of_current) fun hopen => by cases hopen.2.2
  · exact fun _ => ⟨rfl, hkind⟩

/-- The innermost open element ends. -/
theorem endInnermost {i p : Nat} {s : Span} (h : Recorded spans (i :: opened) none)
    (hs : spans[i]? = some s) :
    Recorded (spans.setIfInBounds i { s with stop := some p }) opened none := by
  obtain ⟨hlt, hdecreasing⟩ := List.pairwise_cons.mp h.opened_decreasing
  obtain ⟨s', hs', hopen⟩ := (h.opened_iff i).mp List.mem_cons_self
  obtain rfl : s = s' := Option.some.inj (hs.symm.trans hs')
  refine h.set hs (by simp) rfl rfl hdecreasing ?_ ?_ ?_
  · intro j hj
    simp [hj]
  · exact iff_of_false (fun hi => Nat.lt_irrefl i (hlt i hi)) fun hopen => by cases hopen.2.2
  · exact fun _ => ⟨rfl, fun _ => hopen.2.1⟩

end Recorded

/-- The span begins before an offset, and what is recorded of it does not lie behind. -/
def Span.Before (s : Span) (p : Nat) : Prop :=
  s.start < p ∧ (∀ h, s.headEnd = some h → h ≤ p) ∧ ∀ e, s.stop = some e → e ≤ p

theorem Span.Before.mono {s : Span} {p q : Nat} (h : s.Before p) (hpq : p ≤ q) : s.Before q :=
  ⟨Nat.lt_of_lt_of_le h.1 hpq, fun e he => Nat.le_trans (h.2.1 e he) hpq,
    fun e he => Nat.le_trans (h.2.2 e he) hpq⟩

theorem forall_setIfInBounds {spans : Array Span} {P : Span → Prop} (h : ∀ s ∈ spans, P s) {s' : Span}
    (hs' : P s') (i : Nat) : ∀ s ∈ spans.setIfInBounds i s', P s := by
  intro s hs
  rcases Array.mem_or_eq_of_mem_setIfInBounds hs with hs | rfl
  · exact h s hs
  · exact hs'

/-! ## States -/

/-- The kinds of the spans that are read in a state. -/
def ScanState.Admits : ScanState → SpanKind → Prop
  | .head, k | .singleQuoted, k | .doubleQuoted, k => k = .element ∨ k = .declaration
  | .comment, k => k = .comment
  | .cdata, k => k = .cdataSection
  | .instruction, k => k = .processingInstruction
  | .content, _ | .closeTag, _ => False

theorem ScanState.admits_of_inHead {s : ScanState} (h : s.inHead) (k : SpanKind) :
    s.Admits k ↔ k = .element ∨ k = .declaration := by
  cases s <;> first | rfl | cases h

theorem ScanState.ne_of_inHead {s : ScanState} (h : s.inHead) : s ≠ .content ∧ s ≠ .closeTag := by
  cases s <;> first | decide | cases h

theorem ScanState.ne_of_body? {s : ScanState} (h : s.body?.isSome) : s ≠ .content ∧ s ≠ .closeTag := by
  cases s <;> first | decide | cases h

theorem ScanState.ne_element_of_body? {s : ScanState} (h : s.body?.isSome) {k : SpanKind}
    (hk : s.Admits k) : k ≠ .element := by
  cases s <;> simp_all [ScanState.body?, ScanState.Admits]

namespace OpenStack

/-- The stack of the elements with these indexes, innermost first. -/
def of (opened : List Nat) : OpenStack := ⟨opened.map some ++ [none]⟩

@[simp] theorem isBalanced_of (opened : List Nat) : (of opened).isBalanced = opened.isEmpty := by
  cases opened <;> simp [of, isBalanced]

@[simp] theorem pop_of_nil : (of []).pop = (none, of []) := rfl

@[simp] theorem pop_of_cons (i : Nat) (opened : List Nat) :
    (of (i :: opened)).pop = (some i, of opened) := by
  rw [pop, if_neg (by simp)]
  rfl

@[simp] theorem peek_of (opened : List Nat) : (of opened).peek = opened.head? := by
  cases opened <;> rfl

theorem push_of (i : Nat) (opened : List Nat) : (of opened).push i = of (i :: opened) := rfl

end OpenStack

namespace Scanner

/-- **What holds between two turns.** -/
structure Consistent (bytes : List UInt8) (σ : Scanner) : Prop where
  pos_le : σ.pos ≤ bytes.length
  textStart_le : σ.textStart ≤ σ.pos
  markupStart_le : σ.markupStart ≤ σ.pos
  before : ∀ s ∈ σ.spans, s.Before σ.pos
  /-- In content no span that was recorded reaches into the run of text, -/
  before_text : σ.state = .content → ∀ s ∈ σ.spans, s.Before σ.textStart
  /-- and the run of text has no `<`. -/
  text : σ.state = .content →
    ∀ p, σ.textStart ≤ p → p < σ.pos → bytes[p]? ≠ some '<'.toUInt8
  /-- The stack has the open elements on it, above the entry that means none. -/
  recorded : ∃ opened, σ.opened = .of opened ∧ Recorded σ.spans opened σ.current
  current_isSome_iff : σ.current.isSome ↔ σ.state ≠ .content ∧ σ.state ≠ .closeTag
  current_kind : ∀ i s, σ.current = some i → σ.spans[i]? = some s → σ.state.Admits s.kind
  /-- Brackets are open in a declaration only. The depth of a declaration that has ended is left over. -/
  depth : 0 < σ.depth → σ.state ≠ .content → σ.state ≠ .closeTag →
    ∃ i s, σ.current = some i ∧ σ.spans[i]? = some s ∧ s.kind = .declaration

variable {bytes : List UInt8} {σ σ' : Scanner}

/-- Behind markup, where a run of text begins. -/
theorem consistent_of_content (hpos : σ.pos ≤ bytes.length) (hstate : σ.state = .content)
    (htext : σ.textStart = σ.pos) (hmarkup : σ.markupStart ≤ σ.pos) (hcurrent : σ.current = none)
    (hbefore : ∀ s ∈ σ.spans, s.Before σ.pos)
    (hrecorded : ∃ opened, σ.opened = .of opened ∧ Recorded σ.spans opened none) :
    Consistent bytes σ where
  pos_le := hpos
  textStart_le := htext.le
  markupStart_le := hmarkup
  before := hbefore
  before_text _ := htext ▸ hbefore
  text := by
    intro _ p hp hp'
    omega
  recorded := hcurrent ▸ hrecorded
  current_isSome_iff := by simp [hcurrent, hstate]
  current_kind := by simp [hcurrent]
  depth := fun _ hne => absurd hstate hne

theorem consistent_empty (bytes : List UInt8) : Consistent bytes empty :=
  consistent_of_content (Nat.zero_le _) rfl rfl (Nat.le_refl _) rfl (by simp [empty]) ⟨[], rfl, .empty⟩

namespace Consistent

theorem current_eq_none (h : Consistent bytes σ)
    (hstate : σ.state = .content ∨ σ.state = .closeTag) : σ.current = none := by
  cases hcurrent : σ.current with
  | none => rfl
  | some i =>
    have := h.current_isSome_iff.mp (by rw [hcurrent]; rfl)
    exact absurd hstate (by simp [this])

theorem pass (h : Consistent bytes σ) {pos : Nat} (hpos : σ.pos ≤ pos) (hle : pos ≤ bytes.length)
    (hcontent : σ.state = .content → ∀ p, σ.pos ≤ p → p < pos → bytes[p]? ≠ some '<'.toUInt8)
    (lineStarts : Array Nat) : Consistent bytes { σ with pos, lineStarts } where
  pos_le := hle
  textStart_le := h.textStart_le.trans hpos
  markupStart_le := h.markupStart_le.trans hpos
  before s hs := (h.before s hs).mono hpos
  before_text := h.before_text
  text := by
    intro hstate p hp hp'
    by_cases hold : p < σ.pos
    · exact h.text hstate p hp hold
    · exact hcontent hstate p (by omega) hp'
  recorded := h.recorded
  current_isSome_iff := h.current_isSome_iff
  current_kind := h.current_kind
  depth := h.depth

theorem skipInert (h : Consistent bytes σ) {more : Bool}
    (hskip : σ.skipInert bytes = .ok (σ', more)) : Consistent bytes σ' := by
  obtain ⟨-, pos, hpos, hle, rfl, hskipped⟩ := skipInert_eq_ok hskip
  refine h.pass hpos hle ?_ σ.lineStarts
  intro hstate
  exact hskipped _ (by rw [hstate]; rfl)

theorem quote (h : Consistent bytes σ) {state : ScanState} (hstate : σ.state.inHead)
    (hstate' : state.inHead) (hle : σ.pos + 1 ≤ bytes.length) :
    Consistent bytes (σ.shift state) := by
  obtain ⟨hcontent, hclose⟩ := ScanState.ne_of_inHead hstate
  obtain ⟨hcontent', hclose'⟩ := ScanState.ne_of_inHead hstate'
  exact
    { pos_le := hle
      textStart_le := h.textStart_le.trans (Nat.le_succ _)
      markupStart_le := h.markupStart_le.trans (Nat.le_succ _)
      before := fun s hs => (h.before s hs).mono (Nat.le_succ _)
      before_text := fun hc => absurd hc hcontent'
      text := fun hc => absurd hc hcontent'
      recorded := h.recorded
      current_isSome_iff :=
        iff_of_true (h.current_isSome_iff.mpr ⟨hcontent, hclose⟩) ⟨hcontent', hclose'⟩
      current_kind := by
        intro i s hi hs
        have := h.current_kind i s hi hs
        rw [ScanState.admits_of_inHead hstate] at this
        exact (ScanState.admits_of_inHead hstate' _).mpr this
      depth := fun hdepth _ _ => h.depth hdepth hcontent hclose }

theorem bracket (h : Consistent bytes σ) {depth i : Nat} {s : Span} (hstate : σ.state = .head)
    (hcurrent : σ.current = some i) (hs : σ.spans[i]? = some s) (hkind : s.kind = .declaration)
    (hle : σ.pos + 1 ≤ bytes.length) : Consistent bytes ({ σ with depth }.advance 1) where
  pos_le := hle
  textStart_le := h.textStart_le.trans (Nat.le_succ _)
  markupStart_le := h.markupStart_le.trans (Nat.le_succ _)
  before s hs := (h.before s hs).mono (Nat.le_succ _)
  before_text hc := absurd (hstate.symm.trans hc) (by decide)
  text hc := absurd (hstate.symm.trans hc) (by decide)
  recorded := h.recorded
  current_isSome_iff := h.current_isSome_iff
  current_kind := h.current_kind
  depth _ _ _ := ⟨i, s, hcurrent, hs, hkind⟩

theorem endText (h : Consistent bytes σ) (hstate : σ.state = .content) :
    (∀ s ∈ σ.endText.spans, s.Before σ.pos) ∧ σ.endText.opened = σ.opened ∧
      σ.endText.textStart = σ.textStart ∧ σ.endText.current = none ∧
      ∀ opened : List Nat, Recorded σ.spans opened σ.current →
        Recorded σ.endText.spans opened none := by
  have hcurrent := h.current_eq_none (.inl hstate)
  have hbefore := h.before_text hstate
  unfold Scanner.endText
  split
  next hlt =>
    refine ⟨?_, rfl, rfl, hcurrent, ?_⟩
    · intro s hs
      rcases Array.mem_push.mp hs with hs | rfl
      · exact (hbefore s hs).mono hlt.le
      · exact ⟨hlt, by simp, by simp⟩
    · intro opened hrecorded
      rw [hcurrent] at hrecorded
      exact hrecorded.push (fun s hs => (hbefore s hs).1) (by simp)
  next hnot =>
    refine ⟨h.before, rfl, rfl, hcurrent, ?_⟩
    intro opened hrecorded
    rwa [hcurrent] at hrecorded

theorem beginCloseTag (h : Consistent bytes σ) (hstate : σ.state = .content)
    (hle : σ.pos + 2 ≤ bytes.length) : Consistent bytes
      { σ.endText with markupStart := σ.pos, state := .closeTag, pos := σ.pos + 2 } := by
  obtain ⟨opened, hstack, hrecorded⟩ := h.recorded
  obtain ⟨hbefore, hopened, htext, hcurrent, hspans⟩ := h.endText hstate
  exact
    { pos_le := hle
      textStart_le := by
        show σ.endText.textStart ≤ σ.pos + 2
        have := h.textStart_le
        omega
      markupStart_le := Nat.le_add_right _ _
      before := fun s hs => (hbefore s hs).mono (Nat.le_add_right _ _)
      before_text := by simp
      text := by simp
      recorded := ⟨opened, hopened.trans hstack, hcurrent ▸ hspans opened hrecorded⟩
      current_isSome_iff := by simp [hcurrent]
      current_kind := by simp [hcurrent]
      depth := by simp }

theorem begin (h : Consistent bytes σ) {o : Opening} (ho : o ≠ .closeTag)
    (hstate : σ.state = .content) (hle : σ.pos + o.mark.length ≤ bytes.length) :
    Consistent bytes ({ σ.endText with
      markupStart := σ.pos, state := (kindAndState o).2, pos := σ.pos + o.mark.length,
      current := some σ.endText.spans.size, depth := 0 }.pushSpan (kindAndState o).1 σ.pos none) := by
  obtain ⟨opened, hstack, hrecorded⟩ := h.recorded
  obtain ⟨hbefore, hopened, htext, hcurrent, hspans⟩ := h.endText hstate
  have hmark := o.length_mark_pos
  have hstate' : (kindAndState o).2 ≠ .content ∧ (kindAndState o).2 ≠ .closeTag ∧
      (kindAndState o).2.Admits (kindAndState o).1 := by
    cases o <;> simp [kindAndState, ScanState.Admits] at ho ⊢
  obtain ⟨hcontent, hclose, hadmits⟩ := hstate'
  exact
    { pos_le := hle
      textStart_le := by
        show σ.endText.textStart ≤ σ.pos + o.mark.length
        have := h.textStart_le
        omega
      markupStart_le := Nat.le_add_right _ _
      before := by
        intro s hs
        rcases Array.mem_push.mp hs with hs | rfl
        · exact (hbefore s hs).mono (Nat.le_add_right _ _)
        · exact ⟨Nat.lt_add_of_pos_right hmark, by simp, by simp⟩
      before_text := fun hc => absurd hc hcontent
      text := fun hc => absurd hc hcontent
      recorded := ⟨opened, hopened.trans hstack,
        (hspans opened hrecorded).push (fun s hs => (hbefore s hs).1) (by simp)⟩
      current_isSome_iff := iff_of_true rfl ⟨hcontent, hclose⟩
      current_kind := by
        intro i s hi hs
        obtain rfl := Option.some.inj hi
        rw [pushSpan, Array.getElem?_push_size] at hs
        obtain rfl := Option.some.inj hs
        exact hadmits
      depth := fun hdepth => absurd hdepth (Nat.lt_irrefl 0) }

/-- Behind a delimiter that ends something, more is recorded of one span. -/
theorem fill (h : Consistent bytes σ) {i n : Nat} {s s' : Span} {stack : OpenStack} {opened : List Nat}
    {current : Option Nat} (hle : σ.pos + n ≤ bytes.length) (hcurrent : current = none)
    (hs : σ.spans[i]? = some s) (hbefore : s.Before (σ.pos + n) → s'.Before (σ.pos + n))
    (hstack : stack = .of opened) (hrecorded : Recorded (σ.spans.setIfInBounds i s') opened none) :
    Consistent bytes { σ with
      pos := σ.pos + n, state := .content, textStart := σ.pos + n, current, opened := stack
      spans := σ.spans.setIfInBounds i s' } := by
  have hmono : ∀ s ∈ σ.spans, s.Before (σ.pos + n) := fun s hs =>
    (h.before s hs).mono (Nat.le_add_right σ.pos n)
  refine consistent_of_content hle rfl rfl (h.markupStart_le.trans (Nat.le_add_right _ _)) hcurrent ?_
    ⟨opened, hstack, hrecorded⟩
  exact forall_setIfInBounds hmono (hbefore (hmono s (Array.mem_of_getElem? hs))) i

theorem turn (h : Consistent bytes σ) (ht : Turn bytes σ σ') : Consistent bytes σ' := by
  obtain ⟨opened, hstack, hrecorded⟩ := h.recorded
  cases ht with
  | pass hlt hle hcontent => exact h.pass hlt.le hle hcontent _
  | quote hstate hstate' hle => exact h.quote hstate hstate' hle
  | bracket hstate hcurrent hs hkind hle => exact h.bracket hstate hcurrent hs hkind hle
  | beginCloseTag hstate hle => exact h.beginCloseTag hstate hle
  | begin ho hstate hle => exact h.begin ho hstate hle
  | @endConstruct i n s hstate hcurrent hs hn hle =>
    rw [hcurrent] at hrecorded
    have hkind : s.kind ≠ .element := by
      refine hstate.elim (fun hbody => ?_) id
      exact ScanState.ne_element_of_body? hbody (h.current_kind i s hcurrent hs)
    exact h.fill hle rfl hs (fun hb => ⟨hb.1, hb.2.1, by simp⟩) hstack
      (hrecorded.endCurrent hs fun hk => absurd hk hkind)
  | @endEmptyTag i s hstate hcurrent hs hkind hle =>
    rw [hcurrent] at hrecorded
    exact h.fill hle rfl hs (fun hb => ⟨hb.1, by simp, by simp⟩) hstack
      (hrecorded.endCurrent hs fun _ => rfl)
  | @endStartTag i s hstate hcurrent hs hkind hle =>
    rw [hcurrent] at hrecorded
    have hpush : σ.opened.push i = .of (i :: opened) := by
      rw [hstack, OpenStack.push_of]
    exact h.fill hle rfl hs (fun hb => ⟨hb.1, by simp, hb.2.2⟩) hpush (hrecorded.openCurrent hs hkind)
  | @endCloseTag i s outer hstate hpop hs hle =>
    have hcurrent := h.current_eq_none (.inr hstate)
    rw [hcurrent] at hrecorded
    obtain ⟨rest, rfl, rfl⟩ : ∃ rest, opened = i :: rest ∧ outer = .of rest := by
      rw [hstack] at hpop
      cases opened with
      | nil => simp at hpop
      | cons j rest =>
        obtain ⟨hj, houter⟩ := Prod.mk.inj ((OpenStack.pop_of_cons j rest).symm.trans hpop)
        exact ⟨rest, by rw [Option.some.inj hj], houter.symm⟩
    exact h.fill hle hcurrent hs (fun hb => ⟨hb.1, hb.2.1, by simp⟩) rfl (hrecorded.endInnermost hs)
  | lose hstate hcurrent hn hle =>
    -- Nothing but a current span is read in these states.
    have hsome := h.current_isSome_iff.mpr (hstate.elim ScanState.ne_of_body? fun hs => by simp [hs])
    simp [hcurrent] at hsome

end Consistent

/-- Every state in which a turn begins is consistent. -/
theorem Reachable.consistent (h : Reachable bytes σ) : Consistent bytes σ := by
  induction h with
  | empty => exact consistent_empty bytes
  | turn _ hskip hreact ih => exact (ih.skipInert hskip).turn (turn_of_react hreact)

end Scanner

end XmlLocate
