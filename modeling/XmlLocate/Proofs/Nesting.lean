import XmlLocate.Proofs.Grammar
import XmlLocate.Scan

/-!
# Spans from balanced tokens

A scan keeps a stack and fills in the ends of elements when it meets their close tags. This file
says what comes out without a stack: the tags must be balanced, and the span of each token can be
read off the tokens behind it.

**Theorem (`scan_eq_ok_iff`).** A scan succeeds exactly if the tokens of the text are `Balanced`, and
then its spans are `spansOf 0 0` of the tokens.

One direction is an induction on `Balanced`: reading balanced tokens adds their spans and leaves the
open elements as they were (`foldlM_step_of_balanced`). For the other, a run that succeeds closes
all that is open (`closes_of_foldlM_step`), and tokens that do so fall into balanced parts between
the close tags (`Closes.split`).
-/

namespace XmlLocate

/-! ## Lengths -/

/-- The number of bytes that a token takes. -/
def Token.length (k : Token) : Nat := byteLength k.text

/-- The number of bytes that tokens take together. -/
def lengthOf (ks : List Token) : Nat := byteLength (ks.flatMap Token.text)

@[simp] theorem lengthOf_nil : lengthOf [] = 0 := rfl

@[simp] theorem lengthOf_cons (k : Token) (ks : List Token) :
    lengthOf (k :: ks) = k.length + lengthOf ks := by
  simp [lengthOf, Token.length]

@[simp] theorem lengthOf_append (xs ys : List Token) :
    lengthOf (xs ++ ys) = lengthOf xs + lengthOf ys := by
  simp [lengthOf]

/-! ## Balanced tokens -/

/-- The kind of the span that a token has, if it has one. -/
def Token.kind? (k : Token) : Option SpanKind :=
  match k.form with
  | .text => if k.complete then some .text else none
  | .closeTag => none
  | .instruction => some .processingInstruction
  | .comment => some .comment
  | .cdata => some .cdataSection
  | .declaration => some .declaration
  | .startTag | .emptyTag => some .element

/-- A token that stands for itself: it is no tag of a pair, and if it may not be unfinished it is
not. -/
def Token.isLeaf (k : Token) : Bool :=
  match k.form with
  | .startTag | .closeTag => false
  | .declaration | .emptyTag => k.complete
  | .text | .instruction | .comment | .cdata => true

def Token.isStart (k : Token) : Bool := k.form == .startTag && k.complete

def Token.isClose (k : Token) : Bool := k.form == .closeTag && k.complete

/-- Tokens in which each start tag has its close tag. -/
inductive Balanced : List Token → Prop
  | nil : Balanced []
  | leaf {k : Token} {ks : List Token} : k.isLeaf → Balanced ks → Balanced (k :: ks)
  | element {o c : Token} {inner rest : List Token} : o.isStart → c.isClose → Balanced inner →
      Balanced rest → Balanced (o :: (inner ++ c :: rest))

theorem Balanced.append {xs ys : List Token} (hx : Balanced xs) (hy : Balanced ys) :
    Balanced (xs ++ ys) := by
  induction hx with
  | nil => exact hy
  | leaf hk _ ih => exact .leaf hk ih
  | element ho hc hi _ _ ih =>
    rw [List.cons_append, List.append_assoc, List.cons_append]
    exact .element ho hc hi ih

/-! ## Their spans -/

/-- Where the element ends within which `depth` more are open before the tokens, the first of which
begins at `offset`. -/
def closingFrom (depth offset : Nat) : List Token → Option Nat
  | [] => none
  | k :: ks =>
    let stop := offset + k.length
    if k.form = .startTag then closingFrom (depth + 1) stop ks
    else if k.form = .closeTag then
      if depth = 0 then some stop else closingFrom (depth - 1) stop ks
    else closingFrom depth stop ks

/-- The spans of tokens, from the rank and the offset of the first. -/
def spansOf (sequence offset : Nat) : List Token → List Span
  | [] => []
  | k :: ks =>
    let stop := offset + k.length
    match k.kind? with
    | none => spansOf sequence stop ks
    | some kind =>
      { sequence, kind, start := offset
        headEnd := if kind = .element then some stop else none
        stop :=
          if k.form = .startTag then closingFrom 0 stop ks
          else if k.complete then some stop else none } :: spansOf (sequence + 1) stop ks

theorem Token.form_ne_of_isLeaf {k : Token} (hk : k.isLeaf) :
    k.form ≠ .startTag ∧ k.form ≠ .closeTag := by
  constructor
  · intro hf
    simp [isLeaf, hf] at hk
  · intro hf
    simp [isLeaf, hf] at hk

theorem closingFrom_leaf {k : Token} (hk : k.isLeaf) (depth offset : Nat) (ks : List Token) :
    closingFrom depth offset (k :: ks) = closingFrom depth (offset + k.length) ks := by
  obtain ⟨hs, hc⟩ := Token.form_ne_of_isLeaf hk
  rw [closingFrom, if_neg hs, if_neg hc]

theorem Token.form_of_isStart {k : Token} (hk : k.isStart) : k.form = .startTag := by
  simp_all [Token.isStart]

theorem Token.form_of_isClose {k : Token} (hk : k.isClose) : k.form = .closeTag := by
  simp_all [Token.isClose]

theorem closingFrom_start {k : Token} (hk : k.isStart) (depth offset : Nat) (ks : List Token) :
    closingFrom depth offset (k :: ks) = closingFrom (depth + 1) (offset + k.length) ks := by
  rw [closingFrom, if_pos (Token.form_of_isStart hk)]

theorem closingFrom_close_zero {k : Token} (hk : k.isClose) (offset : Nat) (ks : List Token) :
    closingFrom 0 offset (k :: ks) = some (offset + k.length) := by
  simp [closingFrom, Token.form_of_isClose hk]

theorem closingFrom_close_succ {k : Token} (hk : k.isClose) (depth offset : Nat)
    (ks : List Token) :
    closingFrom (depth + 1) offset (k :: ks) = closingFrom depth (offset + k.length) ks := by
  simp [closingFrom, Token.form_of_isClose hk]

/-- Balanced tokens close nothing that was open before them. -/
theorem closingFrom_append {xs : List Token} (h : Balanced xs) (depth offset : Nat)
    (ys : List Token) :
    closingFrom depth offset (xs ++ ys) = closingFrom depth (offset + lengthOf xs) ys := by
  induction h generalizing depth offset ys with
  | nil => rfl
  | leaf hk _ ih =>
    rw [List.cons_append, closingFrom_leaf hk, ih, lengthOf_cons, Nat.add_assoc]
  | @element o c inner rest ho hc _ _ ihi ihr =>
    rw [List.cons_append, closingFrom_start ho, List.append_assoc, ihi, List.cons_append,
      closingFrom_close_succ hc, ihr]
    simp only [lengthOf_cons, lengthOf_append]
    congr 1
    omega

theorem closingFrom_element {inner : List Token} (h : Balanced inner) {c : Token} (hc : c.isClose)
    (offset : Nat) (rest : List Token) :
    closingFrom 0 offset (inner ++ c :: rest) = some (offset + lengthOf inner + c.length) := by
  rw [closingFrom_append h, closingFrom_close_zero hc]

/-- The span of a leaf, if it has one. -/
def leafSpans (sequence offset : Nat) (k : Token) : List Span :=
  match k.kind? with
  | none => []
  | some kind =>
    [{ sequence, kind, start := offset
       headEnd := if kind = .element then some (offset + k.length) else none
       stop := if k.complete then some (offset + k.length) else none }]

/-- The span of an element from its tags. -/
def elementSpan (sequence offset : Nat) (o : Token) (inner : List Token) (c : Token) : Span where
  sequence
  kind := .element
  start := offset
  headEnd := some (offset + o.length)
  stop := some (offset + o.length + lengthOf inner + c.length)

theorem spansOf_leaf {k : Token} (hk : k.isLeaf) (sequence offset : Nat) (ks : List Token) :
    spansOf sequence offset (k :: ks) = leafSpans sequence offset k ++
      spansOf (sequence + (leafSpans sequence offset k).length) (offset + k.length) ks := by
  obtain ⟨hf, -⟩ := Token.form_ne_of_isLeaf hk
  rw [spansOf, leafSpans]
  cases k.kind? with
  | none => rfl
  | some kind => simp [hf]

theorem spansOf_close {k : Token} (hk : k.isClose) (sequence offset : Nat) (ks : List Token) :
    spansOf sequence offset (k :: ks) = spansOf sequence (offset + k.length) ks := by
  have hf : k.kind? = none := by simp [Token.kind?, Token.form_of_isClose hk]
  rw [spansOf, hf]

theorem spansOf_start {o : Token} (ho : o.isStart) (sequence offset : Nat) (ks : List Token) :
    spansOf sequence offset (o :: ks) =
      ⟨sequence, .element, offset, some (offset + o.length),
        closingFrom 0 (offset + o.length) ks⟩ :: spansOf (sequence + 1) (offset + o.length) ks := by
  simp [spansOf, Token.kind?, Token.form_of_isStart ho]

/-- The spans of balanced tokens do not depend on what follows. -/
theorem spansOf_append {xs : List Token} (h : Balanced xs) (sequence offset : Nat)
    (ys : List Token) :
    spansOf sequence offset (xs ++ ys) = spansOf sequence offset xs ++
      spansOf (sequence + (spansOf sequence offset xs).length) (offset + lengthOf xs) ys := by
  induction h generalizing sequence offset ys with
  | nil => rfl
  | leaf hk _ ih =>
    rw [List.cons_append, spansOf_leaf hk, spansOf_leaf hk, ih]
    simp only [List.append_assoc, List.length_append, lengthOf_cons, Nat.add_assoc]
  | @element o c inner rest ho hc hi _ ihi ihr =>
    rw [List.cons_append, List.append_assoc, List.cons_append, spansOf_start ho, spansOf_start ho,
      closingFrom_element hi hc, closingFrom_element hi hc, ihi, ihi _ _ (c :: rest),
      spansOf_close hc, spansOf_close hc, ihr]
    simp only [List.cons_append, List.append_assoc, List.length_cons, List.length_append,
      lengthOf_cons, lengthOf_append]
    congr 4 <;> omega

theorem spansOf_element {o c : Token} {inner : List Token} (ho : o.isStart) (hc : c.isClose)
    (hi : Balanced inner) (sequence offset : Nat) (rest : List Token) :
    spansOf sequence offset (o :: (inner ++ c :: rest)) =
      elementSpan sequence offset o inner c ::
        (spansOf (sequence + 1) (offset + o.length) inner ++
          spansOf (sequence + 1 + (spansOf (sequence + 1) (offset + o.length) inner).length)
            (offset + o.length + lengthOf inner + c.length) rest) := by
  rw [spansOf_start ho, closingFrom_element hi hc, spansOf_append hi, spansOf_close hc]
  rfl

/-! ## Balanced tokens, scanned -/

/-- The lines of a text after tokens are put at its end. -/
def linesAfter (l : LineTable) (ks : List Token) : LineTable :=
  ks.foldl (fun l k => l.extend k.text) l

@[simp] theorem linesAfter_nil (l : LineTable) : linesAfter l [] = l := rfl

@[simp] theorem linesAfter_cons (l : LineTable) (k : Token) (ks : List Token) :
    linesAfter l (k :: ks) = linesAfter (l.extend k.text) ks := rfl

@[simp] theorem linesAfter_append (l : LineTable) (xs ys : List Token) :
    linesAfter l (xs ++ ys) = linesAfter (linesAfter l xs) ys :=
  List.foldl_append

theorem length_extend (l : LineTable) (k : Token) : (l.extend k.text).length = l.length + k.length :=
  rfl

theorem length_linesAfter (l : LineTable) (ks : List Token) :
    (linesAfter l ks).length = l.length + lengthOf ks := by
  induction ks generalizing l with
  | nil => rfl
  | cons k ks ih =>
    rw [linesAfter_cons, ih, length_extend, lengthOf_cons, Nat.add_assoc]

namespace Assembly

@[simp] theorem offset_mk (spans : Array Span) (opened : List Span) (lines : LineTable) :
    (mk spans opened lines).offset = lines.length := rfl

theorem step_of_isLeaf {k : Token} (hk : k.isLeaf) (a : Assembly) :
    a.step k = .ok
      { spans := a.spans ++ (leafSpans a.spans.size a.offset k).toArray
        opened := a.opened
        lines := a.lines.extend k.text } := by
  unfold step record
  cases hf : k.form <;> cases hc : k.complete <;>
    simp_all [Token.isLeaf, leafSpans, Token.kind?, push, span, Token.length, bind, Except.bind,
      pure, Except.pure]

theorem step_of_isStart {o : Token} (ho : o.isStart) (a : Assembly) :
    a.step o = .ok
      { spans := a.spans.push ⟨a.spans.size, .element, a.offset, some (a.offset + o.length), none⟩
        opened := ⟨a.spans.size, .element, a.offset, some (a.offset + o.length), none⟩ :: a.opened
        lines := a.lines.extend o.text } := by
  have hc : o.complete = true := by simp_all [Token.isStart]
  unfold step record
  rw [Token.form_of_isStart ho, hc]
  rfl

theorem step_of_isClose {c : Token} (hc : c.isClose) {a : Assembly} {s : Span} {outer : List Span}
    (ho : a.opened = s :: outer) :
    a.step c = .ok
      { spans := a.spans.setIfInBounds s.sequence { s with stop := some (a.offset + c.length) }
        opened := outer
        lines := a.lines.extend c.text } := by
  have hcomplete : c.complete = true := by simp_all [Token.isClose]
  unfold step record
  rw [Token.form_of_isClose hc, hcomplete, ho]
  rfl

theorem setIfInBounds_size {xs ys : Array Span} {s s' : Span} :
    (xs.push s ++ ys).setIfInBounds xs.size s' = xs.push s' ++ ys := by
  apply Array.ext'
  simp

/-- Reading balanced tokens adds their spans and leaves the open elements as they were. -/
theorem foldlM_step_of_balanced {ks : List Token} (h : Balanced ks) (a : Assembly) :
    ks.foldlM step a = .ok
      { spans := a.spans ++ (spansOf a.spans.size a.offset ks).toArray
        opened := a.opened
        lines := linesAfter a.lines ks } := by
  induction h generalizing a with
  | nil => simp [spansOf, linesAfter, pure, Except.pure]
  | @leaf k ks hk _ ih =>
    rw [List.foldlM_cons, step_of_isLeaf hk]
    show ks.foldlM step _ = _
    rw [ih, spansOf_leaf hk]
    simp [length_extend, offset]
  | @element o c inner rest ho hc hi _ ihi ihr =>
    rw [List.foldlM_cons, step_of_isStart ho]
    show (inner ++ c :: rest).foldlM step _ = _
    rw [List.foldlM_append, ihi]
    show (c :: rest).foldlM step _ = _
    rw [List.foldlM_cons, step_of_isClose hc rfl]
    show rest.foldlM step _ = _
    rw [ihr, spansOf_element ho hc hi]
    simp only [setIfInBounds_size, offset_mk, length_linesAfter, length_extend, Array.size_push,
      linesAfter_cons, linesAfter_append, elementSpan]
    have hoffset : a.lines.length = a.offset := rfl
    simp [hoffset, Nat.add_assoc, Nat.add_comm]

end Assembly

/-! ## Runs that close everything -/

/-- Tokens that close `depth` elements that were open before them, and all that they open. -/
inductive Closes : Nat → List Token → Prop
  | nil : Closes 0 []
  | leaf {depth : Nat} {k : Token} {ks : List Token} : k.isLeaf → Closes depth ks →
      Closes depth (k :: ks)
  | start {depth : Nat} {k : Token} {ks : List Token} : k.isStart → Closes (depth + 1) ks →
      Closes depth (k :: ks)
  | close {depth : Nat} {k : Token} {ks : List Token} : k.isClose → Closes depth ks →
      Closes (depth + 1) (k :: ks)

/-- Tokens that close nothing from before are balanced; others are balanced up to the first close tag
of what was open. -/
theorem Closes.split {depth : Nat} {ks : List Token} (h : Closes depth ks) :
    (depth = 0 → Balanced ks) ∧ ∀ d, depth = d + 1 →
      ∃ inner c rest, ks = inner ++ c :: rest ∧ Balanced inner ∧ c.isClose ∧ Closes d rest := by
  -- A start tag is followed by two parts, so the induction has to reach behind the first.
  induction hn : ks.length using Nat.strong_induction_on generalizing depth ks with
  | _ n ih =>
    subst hn
    cases h with
    | nil => exact ⟨fun _ => .nil, fun d hd => absurd hd (by simp)⟩
    | @leaf _ k ks hk h =>
      obtain ⟨h0, hs⟩ := ih _ (by simp) h rfl
      constructor
      · intro hd
        exact .leaf hk (h0 hd)
      · intro d hd
        obtain ⟨inner, c, rest, rfl, hi, hc, hr⟩ := hs d hd
        exact ⟨k :: inner, c, rest, rfl, .leaf hk hi, hc, hr⟩
    | @start _ k ks hk h =>
      obtain ⟨inner, c, rest, rfl, hi, hc, hr⟩ := (ih _ (by simp) h rfl).2 depth rfl
      obtain ⟨h0, hs⟩ := ih rest.length (by simp; omega) hr rfl
      constructor
      · intro hd
        exact .element hk hc hi (h0 hd)
      · intro d hd
        obtain ⟨inner', c', rest', rfl, hi', hc', hr'⟩ := hs d hd
        exact ⟨k :: (inner ++ c :: inner'), c', rest', by simp, .element hk hc hi hi', hc', hr'⟩
    | @close depth k ks hk h =>
      constructor
      · intro hd
        exact absurd hd (by simp)
      · intro d hd
        obtain rfl : depth = d := by omega
        exact ⟨[], k, ks, rfl, .nil, hk, h⟩

/-- Of these tokens only the last may be incomplete, and no empty tag. -/
def Settled (ks : List Token) : Prop :=
  (∀ k ∈ ks.dropLast, k.complete) ∧ ∀ k ∈ ks, k.form = .emptyTag → k.complete

theorem Settled.tail {k : Token} {ks : List Token} (h : Settled (k :: ks)) : Settled ks := by
  refine ⟨fun j hj => h.1 j ?_, fun j hj => h.2 j (List.mem_cons_of_mem _ hj)⟩
  cases ks with
  | nil => simp at hj
  | cons => exact List.mem_cons_of_mem _ hj

theorem Settled.complete_of_ne_nil {k : Token} {ks : List Token} (h : Settled (k :: ks))
    (hks : ks ≠ []) : k.complete := by
  obtain ⟨j, js, rfl⟩ := List.exists_cons_of_ne_nil hks
  exact h.1 k (by simp)

theorem Token.leaf_or_tag (k : Token) :
    k.isLeaf ∨ k.isStart ∨ k.isClose ∨ (k.complete = false ∧
      (k.form = .startTag ∨ k.form = .declaration ∨ k.form = .closeTag ∨ k.form = .emptyTag)) := by
  cases hf : k.form <;> cases hc : k.complete <;> simp [isLeaf, isStart, isClose, hf, hc]

namespace Assembly

theorem step_startTag_unfinished {k : Token} (hf : k.form = .startTag) (hk : k.complete = false)
    (a : Assembly) : a.step k = .error (.ofOffset a.lines a.offset .unterminatedElement) := by
  unfold step record
  simp [hf, hk, bind, Except.bind]

theorem step_declaration_unfinished {k : Token} (hf : k.form = .declaration)
    (hk : k.complete = false) (a : Assembly) :
    a.step k = .error (.ofOffset a.lines a.offset .unterminatedDeclaration) := by
  unfold step record
  simp [hf, hk, bind, Except.bind]

theorem step_closeTag_of_nil {k : Token} (hf : k.form = .closeTag) {a : Assembly}
    (ha : a.opened = []) : a.step k = .error (.ofOffset a.lines a.offset .unmatchedCloseTag) := by
  unfold step record
  simp [hf, ha, bind, Except.bind]

theorem step_closeTag_unfinished {k : Token} (hf : k.form = .closeTag) (hk : k.complete = false)
    {a : Assembly} (ha : a.opened ≠ []) :
    a.step k = .ok { a with lines := a.lines.extend k.text } := by
  obtain ⟨s, outer, ho⟩ := List.exists_cons_of_ne_nil ha
  unfold step record
  simp [hf, hk, ho, bind, Except.bind, pure, Except.pure]

theorem closes_of_foldlM_step {ks : List Token} (hks : Settled ks) {a b : Assembly}
    (h : ks.foldlM step a = .ok b) (hb : b.opened = []) : Closes a.opened.length ks := by
  induction ks generalizing a with
  | nil =>
    obtain rfl : a = b := Except.ok.inj h
    rw [hb]
    exact .nil
  | cons k ks ih =>
    rw [List.foldlM_cons] at h
    obtain ⟨a', hstep, h⟩ := bind_eq_ok h
    have hsettled : ks ≠ [] → k.complete = true := hks.complete_of_ne_nil
    have ih := ih hks.tail h
    rcases k.leaf_or_tag with hk | hk | hk | ⟨hk, hf⟩
    · rw [step_of_isLeaf hk] at hstep
      rw [← Except.ok.inj hstep] at ih
      exact .leaf hk ih
    · rw [step_of_isStart hk] at hstep
      rw [← Except.ok.inj hstep] at ih
      exact .start hk ih
    · cases ho : a.opened with
      | nil =>
        rw [step_closeTag_of_nil (Token.form_of_isClose hk) ho] at hstep
        exact absurd hstep (by simp)
      | cons s outer =>
        rw [step_of_isClose hk ho] at hstep
        rw [← Except.ok.inj hstep] at ih
        exact .close hk ih
    -- What is left is unfinished, and so the last token.
    · have hnil : ks = [] := by
        by_contra hne
        rw [hsettled hne] at hk
        exact absurd hk (by simp)
      subst hnil
      obtain rfl : a' = b := Except.ok.inj h
      rcases hf with hf | hf | hf | hf
      · rw [step_startTag_unfinished hf hk] at hstep
        exact absurd hstep (by simp)
      · rw [step_declaration_unfinished hf hk] at hstep
        exact absurd hstep (by simp)
      · by_cases ha : a.opened = []
        · rw [step_closeTag_of_nil hf ha] at hstep
          exact absurd hstep (by simp)
        · rw [step_closeTag_unfinished hf hk ha] at hstep
          rw [← Except.ok.inj hstep] at hb
          exact absurd hb ha
      · rw [hks.2 k (by simp) hf] at hk
        exact absurd hk (by simp)

end Assembly

/-! ## Scans -/

theorem Token.Heads.rest_eq_nil {t rest : List Char} {k : Token} (h : Heads t k rest)
    (hk : k.complete = false) : rest = [] := by
  cases h with
  | run => simpa using hk
  | markup => simp at hk
  | unfinished => rfl

theorem Token.Heads.complete_of_emptyTag {t rest : List Char} {k : Token} (h : Heads t k rest)
    (hf : k.form = .emptyTag) : k.complete := by
  cases h with
  | run => simp at hf
  | markup => rfl
  | @unfinished o => cases o <;> simp [Opening.form] at hf

theorem Token.Tokenises.settled {t : List Char} {ks : List Token} (h : Tokenises t ks) :
    Settled ks := by
  induction h with
  | nil => exact ⟨by simp, by simp⟩
  | @cons t rest k ks hk hks ih =>
    constructor
    · intro j hj
      cases hks with
      | nil => simp at hj
      | cons hk' hks' =>
        rcases List.mem_cons.mp hj with rfl | hj
        · by_contra hc
          rw [Bool.not_eq_true] at hc
          exact hk'.ne_nil (hk.rest_eq_nil hc)
        · exact ih.1 j hj
    · intro j hj hf
      rcases List.mem_cons.mp hj with rfl | hj
      · exact hk.complete_of_emptyTag hf
      · exact ih.2 j hj hf

theorem settled_lex (source : List Char) : Settled (Token.lex source) :=
  (Token.tokenises_iff.mpr rfl).settled

/-- **A scan succeeds exactly if the tokens are balanced**, and gives their spans. -/
theorem scan_eq_ok_iff {source : List Char} {s : Scan} :
    scan source = .ok s ↔ Balanced (Token.lex source) ∧
      s = ⟨(spansOf 0 0 (Token.lex source)).toArray, linesAfter .empty (Token.lex source)⟩ := by
  have hrun : Balanced (Token.lex source) → scan source =
      .ok ⟨(spansOf 0 0 (Token.lex source)).toArray, linesAfter .empty (Token.lex source)⟩ := by
    intro h
    unfold scan
    rw [Assembly.foldlM_step_of_balanced h]
    show Except.ok (Scan.mk (#[] ++ _) _) = _
    rw [Array.empty_append]
    rfl
  constructor
  · intro h
    have hb : Balanced (Token.lex source) := by
      obtain ⟨a, ha, hfin⟩ := bind_eq_ok h
      have hopened : a.opened = [] := by
        unfold Assembly.finish at hfin
        cases ho : a.opened with
        | nil => rfl
        | cons s outer => simp [ho] at hfin
      exact (Assembly.closes_of_foldlM_step (settled_lex source) ha hopened).split.1 rfl
    exact ⟨hb, Except.ok.inj (h.symm.trans (hrun hb))⟩
  · rintro ⟨hb, rfl⟩
    exact hrun hb

theorem lengthOf_lex (source : List Char) : lengthOf (Token.lex source) = byteLength source := by
  rw [lengthOf, Token.texts_lex]

theorem length_lines_of_scan {source : List Char} {s : Scan} (h : scan source = .ok s) :
    s.lines.length = byteLength source := by
  rw [(scan_eq_ok_iff.mp h).2]
  show (linesAfter .empty (Token.lex source)).length = _
  rw [length_linesAfter, lengthOf_lex]
  exact Nat.zero_add _

end XmlLocate
