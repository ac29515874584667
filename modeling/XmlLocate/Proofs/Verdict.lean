import XmlLocate.Proofs.Lines

/-!
# What a scan answers

**Theorem (`scan_verdict`).** Every text ends in exactly one of six ways (`EndsIn`), and the way it ends
in is the answer of its scan: the cause and the place of the failure, or success.

The ways are said of the tokens, without a stack. `OpenAfter ks os` holds if the start tags at the
offsets `os` lack a close tag among the tokens `ks`, and all other tokens of `ks` are balanced. The first
close tag behind balanced tokens is unmatched, whatever follows it; all other failures are at the end
of the text.

`endingFrom` finds the way by reading the tokens once with a stack of offsets. It agrees with `EndsIn`
(`endsIn_iff`), which shows that the ways exclude each other and leave nothing out, and with the scan
(`answers_foldlM_step`). The second is an induction on the tokens; what is known of the lines at a
failure is a part of the table of the whole text, which is enough by `ScanError.ofOffset_extend`.
-/

namespace XmlLocate

/-! ## Endings -/

/-- How a text ends, with the offset of the construct at fault. -/
inductive Ending where
  /-- A close tag was met while no element was open. -/
  | unmatched (offset : Nat)
  /-- The text ends in a close tag while no element is open. -/
  | inUnmatched (offset : Nat)
  | inDeclaration (offset : Nat)
  /-- The text ends in a start tag. -/
  | inHead (offset : Nat)
  /-- The text ends while elements are open, of which this is the innermost. -/
  | inElement (offset : Nat)
  | settled
  deriving DecidableEq, Repr

/-- Why and where a scan fails on a text that ends so. -/
def Ending.failure? : Ending → Option (ScanError.Cause × Nat)
  | unmatched offset | inUnmatched offset => some (.unmatchedCloseTag, offset)
  | inDeclaration offset => some (.unterminatedDeclaration, offset)
  | inHead offset | inElement offset => some (.unterminatedElement, offset)
  | settled => none

/-- Behind the tokens the elements that begin at these offsets are open, innermost first. -/
inductive OpenAfter : List Token → List Nat → Prop
  | balanced {ks : List Token} : Balanced ks → OpenAfter ks []
  | start {before inner : List Token} {o : Token} {os : List Nat} : OpenAfter before os → o.isStart →
      Balanced inner → OpenAfter (before ++ o :: inner) (lengthOf before :: os)

/-- The ways in which the tokens of a text can end. -/
inductive EndsIn : List Token → Ending → Prop
  | unmatched {before behind : List Token} {c : Token} : Balanced before → c.isClose →
      EndsIn (before ++ c :: behind) (.unmatched (lengthOf before))
  | inUnmatched {before : List Token} {c : Token} : Balanced before → c.form = .closeTag →
      c.complete = false → EndsIn (before ++ [c]) (.inUnmatched (lengthOf before))
  | inDeclaration {before : List Token} {os : List Nat} {d : Token} : OpenAfter before os →
      d.form = .declaration → d.complete = false →
      EndsIn (before ++ [d]) (.inDeclaration (lengthOf before))
  | inHead {before : List Token} {os : List Nat} {o : Token} : OpenAfter before os →
      o.form = .startTag → o.complete = false → EndsIn (before ++ [o]) (.inHead (lengthOf before))
  | inElement {ks : List Token} {offset : Nat} {os : List Nat} : OpenAfter ks (offset :: os) →
      EndsIn ks (.inElement offset)
  /-- A close tag that is not finished closes nothing. -/
  | inCloseTag {before : List Token} {offset : Nat} {os : List Nat} {c : Token} :
      OpenAfter before (offset :: os) → c.form = .closeTag → c.complete = false →
      EndsIn (before ++ [c]) (.inElement offset)
  | settled {ks : List Token} : Balanced ks → EndsIn ks .settled

theorem OpenAfter.append {ks xs : List Token} {os : List Nat} (h : OpenAfter ks os)
    (hx : Balanced xs) : OpenAfter (ks ++ xs) os := by
  cases h with
  | balanced hb => exact .balanced (hb.append hx)
  | start h ho hi =>
    rw [List.append_assoc, List.cons_append]
    exact .start h ho (hi.append hx)

theorem OpenAfter.close {ks : List Token} {offset : Nat} {os : List Nat} {c : Token}
    (h : OpenAfter ks (offset :: os)) (hc : c.isClose) : OpenAfter (ks ++ [c]) os := by
  cases h with
  | start h ho hi =>
    rw [List.append_assoc, List.cons_append]
    exact h.append (.element ho hc hi .nil)

theorem OpenAfter.balanced_of_nil {ks : List Token} (h : OpenAfter ks []) : Balanced ks := by
  cases h with
  | balanced hb => exact hb

/-! ## The ending, found in one pass -/

/-- How tokens end behind others that left the elements at the offsets `os` open. -/
def endingFrom (os : List Nat) (offset : Nat) : List Token → Ending
  | [] =>
    match os with
    | [] => .settled
    | o :: _ => .inElement o
  | k :: ks =>
    if k.isLeaf then endingFrom os (offset + k.length) ks
    else if k.isStart then endingFrom (offset :: os) (offset + k.length) ks
    else if k.form = .closeTag then
      match os with
      | [] => if k.complete then .unmatched offset else .inUnmatched offset
      | o :: outer => if k.complete then endingFrom outer (offset + k.length) ks else .inElement o
    else if k.form = .declaration then .inDeclaration offset
    else .inHead offset

theorem endingFrom_leaf {k : Token} (hk : k.isLeaf) (os : List Nat) (offset : Nat)
    (ks : List Token) :
    endingFrom os offset (k :: ks) = endingFrom os (offset + k.length) ks := by
  rw [endingFrom.eq_def]
  exact if_pos hk

theorem endingFrom_start {k : Token} (hk : k.isStart) (os : List Nat) (offset : Nat)
    (ks : List Token) :
    endingFrom os offset (k :: ks) = endingFrom (offset :: os) (offset + k.length) ks := by
  have hleaf : ¬ k.isLeaf := fun h => Token.not_isStart_of_isLeaf h hk
  rw [endingFrom.eq_def]
  exact (if_neg hleaf).trans (if_pos hk)

theorem endingFrom_closeTag_nil {k : Token} (hk : k.form = .closeTag) (offset : Nat)
    (ks : List Token) :
    endingFrom [] offset (k :: ks) = if k.complete then .unmatched offset else .inUnmatched offset := by
  have hleaf : ¬ k.isLeaf := fun h => (Token.form_ne_of_isLeaf h).2 hk
  have hstart : ¬ k.isStart := by simp [Token.isStart, hk]
  rw [endingFrom.eq_def]
  exact (if_neg hleaf).trans ((if_neg hstart).trans (if_pos hk))

theorem endingFrom_closeTag_cons {k : Token} (hk : k.form = .closeTag) (o : Nat) (outer : List Nat)
    (offset : Nat) (ks : List Token) :
    endingFrom (o :: outer) offset (k :: ks) =
      if k.complete then endingFrom outer (offset + k.length) ks else .inElement o := by
  have hleaf : ¬ k.isLeaf := fun h => (Token.form_ne_of_isLeaf h).2 hk
  have hstart : ¬ k.isStart := by simp [Token.isStart, hk]
  rw [endingFrom.eq_def]
  exact (if_neg hleaf).trans ((if_neg hstart).trans (if_pos hk))

theorem endingFrom_unfinished {k : Token} (hk : k.complete = false)
    (hf : k.form = .startTag ∨ k.form = .declaration) (os : List Nat) (offset : Nat)
    (ks : List Token) :
    endingFrom os offset (k :: ks) =
      if k.form = .declaration then .inDeclaration offset else .inHead offset := by
  have hleaf : ¬ k.isLeaf := by rcases hf with hf | hf <;> simp [Token.isLeaf, hf, hk]
  have hstart : ¬ k.isStart := by simp [Token.isStart, hk]
  have hclose : ¬ k.form = .closeTag := by rcases hf with hf | hf <;> simp [hf]
  rw [endingFrom.eq_def]
  exact (if_neg hleaf).trans ((if_neg hstart).trans (if_neg hclose))

theorem Token.isClose_iff (k : Token) : k.isClose ↔ k.form = .closeTag ∧ k.complete := by
  simp [isClose]

/-- Balanced tokens leave open what was open before them. -/
theorem endingFrom_append {xs : List Token} (h : Balanced xs) (os : List Nat) (offset : Nat)
    (ys : List Token) :
    endingFrom os offset (xs ++ ys) = endingFrom os (offset + lengthOf xs) ys := by
  induction h generalizing os offset ys with
  | nil => rfl
  | leaf hk _ ih =>
    rw [List.cons_append, endingFrom_leaf hk, ih, lengthOf_cons, Nat.add_assoc]
  | @element o c inner rest ho hc _ _ ihi ihr =>
    obtain ⟨hform, hcomplete⟩ := c.isClose_iff.mp hc
    rw [List.cons_append, endingFrom_start ho, List.append_assoc, ihi, List.cons_append,
      endingFrom_closeTag_cons hform, if_pos hcomplete, ihr]
    simp only [lengthOf_cons, lengthOf_append, Nat.add_assoc]

theorem endingFrom_of_openAfter {ks : List Token} {os : List Nat} (h : OpenAfter ks os)
    (ys : List Token) : endingFrom [] 0 (ks ++ ys) = endingFrom os (lengthOf ks) ys := by
  induction h generalizing ys with
  | balanced hb => rw [endingFrom_append hb, Nat.zero_add]
  | @start before inner o os _ ho hi ih =>
    rw [List.append_assoc, ih, List.cons_append, endingFrom_start ho, endingFrom_append hi]
    simp only [lengthOf_cons, lengthOf_append, Nat.add_assoc]

theorem EndsIn.endingFrom_eq {ks : List Token} {e : Ending} (h : EndsIn ks e) :
    endingFrom [] 0 ks = e := by
  cases h with
  | unmatched hb hc =>
    obtain ⟨hform, hcomplete⟩ := (Token.isClose_iff _).mp hc
    rw [endingFrom_of_openAfter (.balanced hb), endingFrom_closeTag_nil hform, if_pos hcomplete]
  | inUnmatched hb hf hc =>
    rw [endingFrom_of_openAfter (.balanced hb), endingFrom_closeTag_nil hf, if_neg (by simp [hc])]
  | inDeclaration ho hf hc =>
    rw [endingFrom_of_openAfter ho, endingFrom_unfinished hc (.inr hf), if_pos hf]
  | inHead ho hf hc =>
    rw [endingFrom_of_openAfter ho, endingFrom_unfinished hc (.inl hf), if_neg (by simp [hf])]
  | inElement ho =>
    rw [← List.append_nil ks, endingFrom_of_openAfter ho]
    rfl
  | inCloseTag ho hf hc =>
    rw [endingFrom_of_openAfter ho, endingFrom_closeTag_cons hf, if_neg (by simp [hc])]
  | settled hb =>
    rw [← List.append_nil ks, endingFrom_of_openAfter (.balanced hb)]
    rfl

/-- No way is left out: a token either keeps the tokens before it going or decides. -/
theorem OpenAfter.exists_endsIn {before ks : List Token} {os : List Nat} (h : OpenAfter before os)
    (hks : Settled ks) : ∃ e, EndsIn (before ++ ks) e := by
  induction ks generalizing before os with
  | nil =>
    rw [List.append_nil]
    cases os with
    | nil => exact ⟨_, .settled h.balanced_of_nil⟩
    | cons offset os => exact ⟨_, .inElement h⟩
  | cons k ks ih =>
    have hnext : before ++ k :: ks = before ++ [k] ++ ks := by simp
    rcases k.leaf_or_tag with hk | hk | hk | ⟨hk, hf⟩
    · rw [hnext]
      exact ih (h.append (.leaf hk .nil)) hks.tail
    · rw [hnext]
      exact ih (h.start hk .nil) hks.tail
    · cases os with
      | nil => exact ⟨_, .unmatched h.balanced_of_nil hk⟩
      | cons offset os =>
        rw [hnext]
        exact ih (h.close hk) hks.tail
    -- What is left is unfinished, and so the last token.
    · have hnil : ks = [] := by
        by_contra hne
        rw [hks.complete_of_ne_nil hne] at hk
        exact absurd hk (by simp)
      subst hnil
      rcases hf with hf | hf | hf | hf
      · exact ⟨_, .inHead h hf hk⟩
      · exact ⟨_, .inDeclaration h hf hk⟩
      · cases os with
        | nil => exact ⟨_, .inUnmatched h.balanced_of_nil hf hk⟩
        | cons offset os => exact ⟨_, .inCloseTag h hf hk⟩
      · rw [hks.2 k (by simp) hf] at hk
        exact absurd hk (by simp)

/-- **Tokens end in exactly one way.** -/
theorem endsIn_iff {ks : List Token} (hks : Settled ks) {e : Ending} :
    EndsIn ks e ↔ endingFrom [] 0 ks = e := by
  constructor
  · exact EndsIn.endingFrom_eq
  · rintro rfl
    obtain ⟨e, he⟩ := (OpenAfter.balanced .nil).exists_endsIn hks
    rw [List.nil_append] at he
    rwa [he.endingFrom_eq]

/-! ## The answer -/

/-- The result of a scan is the one for a text with these lines that ends so. -/
def Answers (lines : LineTable) (e : Ending) (r : Except ScanError Scan) : Prop :=
  match e.failure? with
  | none => ∃ s, r = .ok s
  | some (cause, offset) => r = .error (.ofOffset lines offset cause)

namespace Assembly

theorem answers_finish (a : Assembly) :
    Answers a.lines (endingFrom (a.opened.map Span.start) a.offset []) a.finish := by
  unfold finish
  cases ho : a.opened with
  | nil => exact ⟨_, rfl⟩
  | cons s outer => rfl

/-- A token that leads to the state `b` leaves the answer to the tokens behind it. -/
theorem answers_cons {k : Token} {ks : List Token} {a b : Assembly} {lines : LineTable}
    (hstep : a.step k = .ok b) (hlines : b.lines = a.lines.extend k.text)
    (h : Answers lines (endingFrom (b.opened.map Span.start) b.offset ks)
      (ks.foldlM step b >>= finish)) :
    Answers lines (endingFrom (b.opened.map Span.start) (a.offset + k.length) ks)
      ((k :: ks).foldlM step a >>= finish) := by
  have hoffset : b.offset = a.offset + k.length := congrArg LineTable.length hlines
  rw [hoffset] at h
  rw [List.foldlM_cons, hstep]
  exact h

theorem answers_unmatched {k : Token} (hf : k.form = .closeTag) {a : Assembly} (ha : a.opened = [])
    (ks : List Token) (t : List Char) :
    Answers (a.lines.extend t) (endingFrom (a.opened.map Span.start) a.offset (k :: ks))
      ((k :: ks).foldlM step a >>= finish) := by
  rw [List.foldlM_cons, step_closeTag_of_nil hf ha, ha, List.map_nil, endingFrom_closeTag_nil hf,
    ← a.ofOffset_offset t]
  by_cases hc : k.complete
  · rw [if_pos hc]
    rfl
  · rw [if_neg hc]
    rfl

theorem answers_unfinished {k : Token} (hc : k.complete = false)
    (hf : k.form = .startTag ∨ k.form = .declaration ∨ k.form = .closeTag) (a : Assembly) :
    Answers (a.lines.extend k.text) (endingFrom (a.opened.map Span.start) a.offset [k])
      ([k].foldlM step a >>= finish) := by
  rcases hf with hf | hf | hf
  · rw [endingFrom_unfinished hc (.inl hf), if_neg (by simp [hf]), List.foldlM_cons,
      step_startTag_unfinished hf hc, ← a.ofOffset_offset k.text]
    rfl
  · rw [endingFrom_unfinished hc (.inr hf), if_pos hf, List.foldlM_cons,
      step_declaration_unfinished hf hc, ← a.ofOffset_offset k.text]
    rfl
  · cases ho : a.opened with
    | nil =>
      rw [← ho]
      exact answers_unmatched hf ho [] k.text
    | cons s outer =>
      have hstep := step_closeTag_unfinished hf hc (a := a) (by simp [ho])
      have h := answers_cons hstep rfl (answers_finish _)
      rw [List.map_cons, endingFrom_closeTag_cons hf, if_neg (by simp [hc])]
      rwa [ho] at h

/-- From any tokens on, the rest of a scan answers as the rest of the tokens end. -/
theorem answers_foldlM_step {t : List Char} {ks : List Token} (h : Token.Tokenises t ks)
    (a : Assembly) :
    Answers (a.lines.extend t) (endingFrom (a.opened.map Span.start) a.offset ks)
      (ks.foldlM step a >>= finish) := by
  induction h generalizing a with
  | nil =>
    rw [LineTable.extend_nil]
    exact a.answers_finish
  | @cons t rest k ks hk hks ih =>
    have ih : ∀ b : Assembly, b.lines = a.lines.extend k.text → Answers (a.lines.extend t)
        (endingFrom (b.opened.map Span.start) b.offset ks) (ks.foldlM step b >>= finish) := by
      intro b hb
      have := ih b
      rwa [hb, LineTable.extend_extend hk.not_splitsPair, hk.text_append] at this
    rcases k.leaf_or_tag with hleaf | hstart | hclose | ⟨hc, hf⟩
    · have hstep := step_of_isLeaf hleaf a
      rw [endingFrom_leaf hleaf]
      exact (answers_cons hstep rfl (ih _ rfl) :)
    · have hstep := step_of_isStart hstart a
      rw [endingFrom_start hstart]
      exact (answers_cons hstep rfl (ih _ rfl) :)
    · obtain ⟨hform, hcomplete⟩ := k.isClose_iff.mp hclose
      cases ho : a.opened with
      | nil =>
        rw [← ho]
        exact answers_unmatched hform ho ks t
      | cons s outer =>
        have hstep := step_of_isClose hclose ho
        rw [List.map_cons, endingFrom_closeTag_cons hform, if_pos hcomplete]
        exact (answers_cons hstep rfl (ih _ rfl) :)
    -- What is left is unfinished, and so the last token.
    · obtain rfl := hk.rest_eq_nil hc
      obtain rfl : ks = [] := by
        cases hks with
        | nil => rfl
        | cons hk' => exact absurd rfl hk'.ne_nil
      have htext : k.text = t := by simpa using hk.text_append
      rw [← htext]
      rcases hf with hf | hf | hf | hf
      · exact answers_unfinished hc (.inl hf) a
      · exact answers_unfinished hc (.inr (.inl hf)) a
      · exact answers_unfinished hc (.inr (.inr hf)) a
      · rw [hk.complete_of_emptyTag hf] at hc
        exact absurd hc (by simp)

end Assembly

theorem answers_scan (source : List Char) :
    Answers (.ofText source) (endingFrom [] 0 (Token.lex source)) (scan source) :=
  Assembly.answers_foldlM_step (Token.tokenises_iff.mpr rfl) .empty

/-- **The verdict of a scan.** The tokens of a text are given by the grammar, they end in exactly one
way, and a scan answers what this way says; in particular it succeeds exactly if they are balanced. -/
theorem scan_verdict (source : List Char) :
    ∃ ks e, Token.Tokenises source ks ∧ (∀ ks', Token.Tokenises source ks' → ks' = ks) ∧
      EndsIn ks e ∧ (∀ e', EndsIn ks e' → e' = e) ∧ Answers (.ofText source) e (scan source) ∧
      ((∃ s, scan source = .ok s) ↔ Balanced ks) := by
  refine ⟨Token.lex source, endingFrom [] 0 (Token.lex source), Token.tokenises_iff.mpr rfl,
    fun ks' h => (Token.tokenises_iff.mp h).symm, (endsIn_iff (settled_lex source)).mpr rfl,
    fun e' h => h.endingFrom_eq.symm, answers_scan source, ?_⟩
  constructor
  · rintro ⟨s, hs⟩
    exact (scan_eq_ok_iff.mp hs).1
  · intro hb
    exact ⟨_, scan_eq_ok_iff.mpr ⟨hb, rfl⟩⟩

end XmlLocate
