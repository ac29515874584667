import XmlLocate.Proofs.Verdict

/-!
# Scans at other offsets

Two texts may have the same tokens at different places, because a token is longer in one of them or
because something stands before. `Relocates f` says that the tokens of two texts have the same forms, one
by one, and that `f` takes the offset of each beginning and end to its offset in the other text.

**Theorem (`Relocates.scan`).** The scans of such texts give the same spans at the other offsets, or fail
for the same cause at the other offset.

Nothing else is read of a token: which spans come out and how a text ends depends on the forms alone
(`Relocates.spansOf_eq`, `Relocates.endingFrom_eq`), by induction on the tokens.
-/

namespace XmlLocate

/-! ## Spans and results at other offsets -/

/-- The span with another rank and other offsets. -/
def Span.relocate (rank offset : Nat → Nat) (s : Span) : Span where
  sequence := rank s.sequence
  kind := s.kind
  start := offset s.start
  headEnd := s.headEnd.map offset
  stop := s.stop.map offset

/-- Both succeed, with results that `R` relates, or both fail for one cause, at offsets that `f` takes
from the first to the second. -/
inductive SameUpTo {α β : Type} (f : Nat → Nat) (R : α → β → Prop) :
    Except ScanError α → Except ScanError β → Prop
  | ok {a : α} {b : β} : R a b → SameUpTo f R (.ok a) (.ok b)
  | error {e e' : ScanError} : e'.cause = e.cause → e'.offset = f e.offset →
      SameUpTo f R (.error e) (.error e')

/-- The spans of the second scan are those of the first, but for their offsets. -/
def SameSpans (f : Nat → Nat) (s s' : Scan) : Prop := s'.spans = s.spans.map (Span.relocate id f)

theorem SameUpTo.error_ofOffset {α β : Type} {f : Nat → Nat} {R : α → β → Prop} {l l' : LineTable}
    {o o' : Nat} (h : o' = f o) (cause : ScanError.Cause) :
    SameUpTo f R (.error (.ofOffset l o cause)) (.error (.ofOffset l' o' cause)) :=
  .error rfl h

/-! ## Tokens at other offsets -/

/-- The tokens in the second list, from an offset on, have the forms of those in the first, and `f` takes
the offsets of the first to theirs. -/
inductive Relocates (f : Nat → Nat) : Nat → List Token → Nat → List Token → Prop
  | nil {offset offset' : Nat} : offset' = f offset → Relocates f offset [] offset' []
  | cons {offset offset' : Nat} {k k' : Token} {ks ks' : List Token} : offset' = f offset →
      k'.form = k.form → k'.complete = k.complete →
      Relocates f (offset + k.length) ks (offset' + k'.length) ks' →
      Relocates f offset (k :: ks) offset' (k' :: ks')

namespace Relocates

variable {f : Nat → Nat} {offset offset' : Nat} {ks ks' : List Token}

theorem offset_eq (h : Relocates f offset ks offset' ks') : offset' = f offset := by
  cases h with
  | nil h => exact h
  | cons h => exact h

/-- The same tokens at another place. -/
theorem of_add (hf : ∀ n, f (offset + n) = offset' + n) (ks : List Token) :
    Relocates f offset ks offset' ks := by
  induction ks generalizing offset offset' with
  | nil => exact .nil (hf 0).symm
  | cons k ks ih =>
    refine .cons (hf 0).symm rfl rfl (ih ?_)
    intro n
    rw [Nat.add_assoc, hf, Nat.add_assoc]

theorem closingFrom_eq (h : Relocates f offset ks offset' ks') (depth : Nat) :
    closingFrom depth offset' ks' = (closingFrom depth offset ks).map f := by
  induction h generalizing depth with
  | nil => rfl
  | cons h hform _ hks ih =>
    rw [closingFrom, closingFrom, hform, ih, ih, ih, hks.offset_eq]
    split_ifs <;> rfl

/-- **The spans are the same** at the other offsets. -/
theorem spansOf_eq (h : Relocates f offset ks offset' ks') {rank : Nat → Nat}
    {sequence sequence' : Nat} (hrank : ∀ n, rank (sequence + n) = sequence' + n) :
    spansOf sequence' offset' ks' = (spansOf sequence offset ks).map (Span.relocate rank f) := by
  induction h generalizing sequence sequence' with
  | nil => rfl
  | @cons offset offset' k k' ks ks' h hform hcomplete hks ih =>
    have hkind : k'.kind? = k.kind? := by rw [Token.kind?, hform, hcomplete, Token.kind?]
    have hnext : ∀ n, rank (sequence + 1 + n) = sequence' + 1 + n := by
      intro n
      rw [Nat.add_assoc, hrank, Nat.add_assoc]
    rw [spansOf, spansOf, hkind]
    cases k.kind? with
    | none => exact ih hrank
    | some kind =>
      dsimp only
      rw [List.map_cons, ih hnext, hform, hcomplete, hks.closingFrom_eq, hks.offset_eq, h, Span.relocate]
      congr 2
      · exact (hrank 0).symm
      · split_ifs <;> rfl
      · split_ifs <;> rfl

end Relocates

/-! ## Endings at other offsets -/

def Ending.relocate (f : Nat → Nat) : Ending → Ending
  | unmatched offset => unmatched (f offset)
  | inUnmatched offset => inUnmatched (f offset)
  | inDeclaration offset => inDeclaration (f offset)
  | inHead offset => inHead (f offset)
  | inElement offset => inElement (f offset)
  | settled => settled

theorem Ending.failure?_relocate (f : Nat → Nat) (e : Ending) :
    (e.relocate f).failure? = e.failure?.map fun (cause, offset) => (cause, f offset) := by
  cases e <;> rfl

/-- **The ending is the same** at the other offset. -/
theorem Relocates.endingFrom_eq {f : Nat → Nat} {offset offset' : Nat} {ks ks' : List Token}
    (h : Relocates f offset ks offset' ks') (os : List Nat) :
    endingFrom (os.map f) offset' ks' = (endingFrom os offset ks).relocate f := by
  induction h generalizing os with
  | nil => cases os <;> rfl
  | @cons offset offset' k k' ks ks' h hform hcomplete hks ih =>
    have hleaf : k'.isLeaf = k.isLeaf := by rw [Token.isLeaf, hform, hcomplete, Token.isLeaf]
    have hstart : k'.isStart = k.isStart := by rw [Token.isStart, hform, hcomplete, Token.isStart]
    -- The stack of a token behind a start tag, and those behind a close tag.
    have hpush := ih (offset :: os)
    rw [List.map_cons, ← h] at hpush
    cases os with
    | nil =>
      have hkeep := ih []
      rw [List.map_nil] at hkeep hpush ⊢
      rw [endingFrom, endingFrom, hleaf, hstart, hform, hcomplete, hkeep, hpush, h]
      split_ifs <;> rfl
    | cons o outer =>
      have hkeep := ih (o :: outer)
      have hpop := ih outer
      rw [List.map_cons] at hkeep hpush ⊢
      rw [endingFrom, endingFrom, hleaf, hstart, hform, hcomplete, hkeep, hpush, hpop, h]
      split_ifs <;> rfl

/-- **The scans are the same** up to the offsets. -/
theorem Relocates.scan {f : Nat → Nat} {t t' : List Char}
    (h : Relocates f 0 (Token.lex t) 0 (Token.lex t')) :
    SameUpTo f (SameSpans f) (scan t) (XmlLocate.scan t') := by
  have hanswers := answers_scan t
  have hanswers' := answers_scan t'
  have hending := h.endingFrom_eq []
  rw [List.map_nil] at hending
  unfold Answers at hanswers hanswers'
  rw [hending, Ending.failure?_relocate] at hanswers'
  cases hfail : (endingFrom [] 0 (Token.lex t)).failure? with
  | none =>
    rw [hfail] at hanswers hanswers'
    obtain ⟨s, hs⟩ := hanswers
    obtain ⟨s', hs'⟩ := hanswers'
    rw [hs, hs']
    refine .ok ?_
    rw [SameSpans, (scan_eq_ok_iff.mp hs).2, (scan_eq_ok_iff.mp hs').2]
    have hrank : ∀ n, id (0 + n) = 0 + n := fun _ => rfl
    dsimp only
    rw [h.spansOf_eq hrank, List.map_toArray]
  | some p =>
    rw [hfail] at hanswers hanswers'
    dsimp only [Option.map_some] at hanswers hanswers'
    rw [hanswers, hanswers']
    exact .error_ofOffset rfl _

end XmlLocate
