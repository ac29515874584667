import XmlLocate.Proofs.Stepping

/-!
# Heads, one character at a time

The automaton goes through a start tag or a declaration without knowing where it ends; the lexer looks
for the end first. This file says that the automaton gets there, and fails at the end of the text if
there is none.

* `InTag.resume_splitTag`: in a start tag, to the first `>` outside quotes.
* `InDeclaration.resume_splitDeclaration`: in a declaration, to the `>` that ends it, past quoted strings
  and blocks.
-/

namespace XmlLocate

/-- The modes of a head and of what stands in it. -/
def Mode.inHead : Mode → Bool
  | .head | .quoted _ | .nestedComment | .nestedInstruction => true
  | .content | .closeTag | .comment | .cdata | .instruction => false

namespace Machine

variable {m : Machine}

theorem inHead_of_blockMode? {o : Opening} {x : Mode} (h : blockMode? o = some x) : x.inHead := by
  cases o <;> simp only [blockMode?, reduceCtorEq, Option.some.injEq] at h <;> subst h <;> rfl

/-! ## Quotes and blocks in heads -/

theorem with_mode {x : Mode} (hm : m.mode = x) : { m with mode := x } = m := by
  subst hm
  rfl

theorem stepChar_head (hm : m.mode = .head) (c : Char) (t : List Char) :
    m.stepChar c t = .ok (m.stepHead c t) := by
  simp only [stepChar, hm]

theorem stepChar_quoted {q : Char} (hm : m.mode = .quoted q) (c : Char) (t : List Char) :
    m.stepChar c t = .ok (if c = q then { m with mode := .head }.pass [c] else m.pass [c], t) := by
  simp only [stepChar, hm]

/-- What is read in a mode of its own up to a mark, and then leads back to the head around it. -/
theorem resume_enclosed (hm : m.mode = .head) {x : Mode} {mark : List Char}
    (hwait : ({ m with mode := x } : Machine).WaitsFor mark
      fun m' => .ok ({ m' with mode := .head }.pass mark))
    (hfirst : ∀ c t, mark <+: c :: t → ¬ IsTerminator c)
    (hlast : ∀ a b, ¬ SplitsPair (a ++ mark) b) (u t : List Char) :
    ({ m with mode := x } : Machine).resume u t =
      match splitAround mark t with
      | some (a, b) => m.resume (u ++ a ++ mark) b
      | none => ({ m with mode := x }.pass (u ++ t)).finish := by
  have hmark : ∀ a, ¬ SplitsPair a mark := by
    rintro a ⟨-, hn⟩
    obtain ⟨c, r, rfl⟩ := List.exists_cons_of_ne_nil (l := mark) (by rintro rfl; simp at hn)
    exact hfirst c r (List.prefix_refl _) (.inl (by simpa using hn))
  rw [resume_splitAround hwait hfirst]
  cases splitAround mark t with
  | none => rfl
  | some p =>
    obtain ⟨a, b⟩ := p
    show (({ m with mode := .head }.pass (u ++ a)).pass mark).run b = m.resume (u ++ a ++ mark) b
    rw [with_mode hm]
    exact run_pass (hmark _) (hlast _ b)

/-- The machine where a quote may be open in the head that it reads. -/
def atQuote (m : Machine) : Option Char → Machine
  | none => m
  | some q => { m with mode := .quoted q }

theorem resume_openQuote (hm : m.mode = .head) {q : Char} (hq : isQuote q) (u t : List Char) :
    m.resume u (q :: t) = (m.atQuote (some q)).resume (u ++ [q]) t := by
  have hm' : (m.pass u).mode = .head := hm
  apply resume_move (not_isTerminator_of_isQuote hq)
  rw [stepChar_head hm', stepHead, if_pos hq]
  rfl

theorem resume_closeQuote (hm : m.mode = .head) {q : Char} (hq : isQuote q) (u t : List Char) :
    (m.atQuote (some q)).resume u (q :: t) = m.resume (u ++ [q]) t := by
  apply resume_move (not_isTerminator_of_isQuote hq)
  rw [stepChar_quoted rfl, if_pos rfl]
  show Except.ok (({ m with mode := .head }.pass u).pass [q], t) = _
  rw [with_mode hm]

theorem resume_quoted (hm : m.mode = .head) {q : Char} (hq : isQuote q) (u t : List Char) :
    m.resume u (q :: t) =
      match splitAround [q] t with
      | some (a, b) => m.resume (u ++ (q :: a ++ [q])) b
      | none => ((m.atQuote (some q)).pass (u ++ q :: t)).finish := by
  have hterm := not_isTerminator_of_isQuote hq
  have hfirst : ∀ c t, [q] <+: c :: t → ¬ IsTerminator c := by
    intro c t hp
    rwa [singleton_prefix_iff.mp hp]
  have hlast : ∀ a b, ¬ SplitsPair (a ++ [q]) b := fun a b =>
    (not_splitsPair_of_not_isTerminator hterm a b).2
  rw [resume_openQuote hm hq, atQuote, resume_enclosed hm (waitsFor_quoted rfl) hfirst hlast]
  cases splitAround [q] t <;> simp

theorem not_splitsPair_of_getLast? {v : List Char} (hne : v ≠ []) (hlast : v.getLast? ≠ some '\r')
    (a b : List Char) : ¬ SplitsPair (a ++ v) b := by
  intro h
  have := h.1
  rw [List.getLast?_append_of_ne_nil _ hne] at this
  exact hlast this

theorem not_splitsPair_close (o : Opening) (a b : List Char) : ¬ SplitsPair (a ++ o.close) b :=
  not_splitsPair_of_getLast? (by cases o <;> decide) (by cases o <;> decide) a b

theorem not_splitsPair_mark (o : Opening) (a b : List Char) : ¬ SplitsPair (a ++ o.mark) b :=
  not_splitsPair_of_getLast? (by cases o <;> decide) (by cases o <;> decide) a b

theorem exists_mark_eq (o : Opening) : ∃ r, o.mark = '<' :: r := by
  cases o <;> exact ⟨_, rfl⟩

theorem stepHead_block (hdepth : 0 < m.depth) {o : Opening} {x : Mode} (ho : blockMode? o = some x)
    {c : Char} {t : List Char} (hp : o.mark <+: c :: t) :
    m.stepHead c t = ({ m with mode := x }.pass o.mark, t.drop (o.mark.length - 1)) := by
  have hc : c = '<' := by
    cases o <;> simp only [blockMode?, reduceCtorEq] at ho <;>
      exact (List.cons_prefix_cons.mp hp).1.symm
  subst hc
  have hnot : ¬ (o = .instruction ∧ Opening.comment.mark <+: '<' :: t) := by
    rintro ⟨rfl, hcomment⟩
    exact not_prefix_of_second (by decide) hp hcomment
  unfold stepHead
  rw [if_neg (by decide), if_neg (by simp), if_neg (by simp), if_neg (by simp)]
  cases o <;> simp only [blockMode?, reduceCtorEq, Option.some.injEq] at ho <;> subst ho
  · rw [if_neg (fun h => hnot ⟨rfl, h.2⟩), if_pos ⟨hdepth, hp⟩]
    rfl
  · rw [if_pos ⟨hdepth, hp⟩]
    rfl

theorem resume_block (hm : m.mode = .head) (hdepth : 0 < m.depth) {o : Opening} {x : Mode}
    (ho : blockMode? o = some x) (u t : List Char) :
    m.resume u (o.mark ++ t) =
      match splitAround o.close t with
      | some (a, b) => m.resume (u ++ (o.mark ++ a ++ o.close)) b
      | none => ({ m with mode := x }.pass (u ++ (o.mark ++ t))).finish := by
  obtain ⟨r, hr⟩ := exists_mark_eq o
  have hterm : ¬ IsTerminator '<' := by decide
  have hstep : (m.pass u).stepChar '<' (r ++ t) =
      .ok (({ m with mode := x }.pass u).pass o.mark, t) := by
    have hm' : (m.pass u).mode = .head := hm
    have hp : o.mark <+: '<' :: (r ++ t) := by
      rw [hr]
      exact List.prefix_append _ _
    have hdrop : (r ++ t).drop (o.mark.length - 1) = t := by
      rw [hr, List.length_cons, Nat.add_sub_cancel, List.drop_left]
    simp only [stepChar, hm']
    rw [stepHead_block (m := m.pass u) hdepth ho hp, hdrop]
    rfl
  have hu : ¬ SplitsPair u o.mark := by
    rw [hr]
    exact not_splitsPair_of_cons (by decide) _ _
  have hwait : ({ m with mode := x } : Machine).WaitsFor o.close
      fun m' => .ok ({ m' with mode := .head }.pass o.close) := waitsFor_block ho
  rw [hr, List.cons_append, resume_cons hterm, hstep]
  show (({ m with mode := x }.pass u).pass o.mark).run t = _
  rw [run_pass hu (not_splitsPair_mark o u t), resume_enclosed hm hwait
    (fun _ _ => not_isTerminator_of_close_prefix) (not_splitsPair_close o), hr]
  cases splitAround o.close t <;> simp

/-! ## Heads -/

/-- The span that is being read. -/
structure Reads (m : Machine) (i : Nat) (s : Span) : Prop where
  current : m.current = some i
  span : m.spans[i]? = some s

theorem Reads.currentKind? {i : Nat} {s : Span} (h : m.Reads i s) : m.currentKind? = some s.kind := by
  rw [Machine.currentKind?, h.current, Option.bind_some, h.span, Option.map_some]

/-- The failure of a scan whose text ends with `w` in the head of `s`. -/
def headFailure (m : Machine) (s : Span) (w : List Char) : ScanError :=
  .ofOffset (m.lines.extend w) s.start
    (if s.kind = .declaration then .unterminatedDeclaration else .unterminatedElement)

/-- The end of the text is the same failure everywhere in a head. -/
theorem finish_of_inHead (hx : m.mode.inHead) : m.finish = { m with mode := .head }.finish := by
  obtain ⟨mode, _, _, current, _, opened, _, _⟩ := m
  cases mode with
  | head | quoted | nestedComment | nestedInstruction => cases current <;> cases opened <;> rfl
  | content | closeTag | comment | cdata | instruction => simp [Mode.inHead] at hx

theorem finish_head {i : Nat} {s : Span} (hm : m.mode = .head) (h : m.Reads i s) :
    m.finish = .error (m.headFailure s []) := by
  have hkind := h.currentKind?
  obtain ⟨hcurrent, hspan⟩ := h
  rw [finish, headFailure, LineTable.extend_nil]
  simp [hm, hcurrent, hspan, hkind]

theorem finish_inHead {i : Nat} {s : Span} (h : m.Reads i s) {x : Mode} (hx : x.inHead)
    (w : List Char) : ({ m with mode := x }.pass w).finish = .error (m.headFailure s w) := by
  have hread : ({ m with mode := .head }.pass w).Reads i s := ⟨h.current, h.span⟩
  rw [finish_of_inHead hx]
  refine (finish_head rfl hread).trans ?_
  rw [headFailure, headFailure, LineTable.extend_nil]
  rfl

/-! ## Start tags -/

/-- The machine behind the `>` of a start tag, of which `w` was read before. -/
def endTag (m : Machine) (w : List Char) : Machine :=
  if w.getLast? = some '/' then (m.pass w.dropLast).endEmptyTag else (m.pass w).endHead

theorem endTag_concat (m : Machine) (w : List Char) :
    m.endTag (w ++ ['/']) = (m.pass w).endEmptyTag := by
  rw [endTag, if_pos (by simp), List.dropLast_concat]

section

variable {i : Nat} {s : Span}

/-- The machine reads the start tag of the element `s`. -/
structure InTag (m : Machine) (i : Nat) (s : Span) : Prop extends m.Reads i s where
  mode : m.mode = .head
  depth : m.depth = 0
  kind : s.kind = .element

theorem InTag.pass (h : m.InTag i s) (u : List Char) : (m.pass u).InTag i s :=
  ⟨⟨h.current, h.span⟩, h.mode, h.depth, h.kind⟩

theorem InTag.finish_atQuote (h : m.InTag i s) (quote : Option Char) (w : List Char) :
    ((m.atQuote quote).pass w).finish = .error (m.headFailure s w) := by
  cases quote with
  | none =>
    have := finish_inHead h.toReads (rfl : Mode.head.inHead) w
    rwa [with_mode h.mode] at this
  | some q => exact finish_inHead h.toReads rfl w

theorem InTag.stepChar (h : m.InTag i s) {c : Char} (hq : isQuote c = false) (t : List Char) :
    m.stepChar c t = .ok (
      if c = '/' ∧ t.head? = some '>' then (m.endEmptyTag, t.drop 1)
      else if c = '>' then (m.endHead, t)
      else (m.pass [c], t)) := by
  have hkind : m.currentKind? = some .element := by rw [h.currentKind?, h.kind]
  rw [stepChar_head h.mode, stepHead]
  simp [hq, hkind, h.depth]

theorem InTag.resume_end (h : m.InTag i s) (u t : List Char) :
    m.resume u ('>' :: t) = (m.pass u).endHead.run t := by
  rw [resume_cons (by decide), (h.pass u).stepChar (by decide), if_neg (by simp), if_pos rfl]
  rfl

theorem InTag.resume_empty (h : m.InTag i s) (u t : List Char) :
    m.resume u ('/' :: '>' :: t) = (m.pass u).endEmptyTag.run t := by
  rw [resume_cons (by decide), (h.pass u).stepChar (by decide), if_pos ⟨rfl, rfl⟩]
  rfl

theorem InTag.resume_other (h : m.InTag i s) {c : Char} {t : List Char} (hq : isQuote c = false)
    (hempty : ¬ (c = '/' ∧ t.head? = some '>')) (hend : c ≠ '>') (u : List Char) :
    m.resume u (c :: t) = m.resume (u ++ [c]) t := by
  refine resume_inert (.inr ?_) u
  intro v
  rw [(h.pass v).stepChar hq, if_neg hempty, if_neg hend]

/-- A character that leaves the machine in the tag. -/
theorem InTag.resume_step (h : m.InTag i s) {quote : Option Char} (hquote : ∀ q ∈ quote, isQuote q)
    {c : Char} {t : List Char} (hend : ¬ (quote = none ∧ c = '>'))
    (hempty : ¬ (quote = none ∧ c = '/' ∧ t.head? = some '>')) (u : List Char) :
    (m.atQuote quote).resume u (c :: t) = (m.atQuote (quoteStep quote c)).resume (u ++ [c]) t := by
  cases quote with
  | some q =>
    by_cases hc : c = q
    · subst hc
      rw [quoteStep, if_pos rfl]
      exact resume_closeQuote h.mode (hquote c rfl) u t
    · have hp : ¬ [q] <+: c :: t := by rwa [singleton_prefix_iff]
      rw [quoteStep, if_neg hc]
      exact resume_inert ((waitsFor_quoted rfl).inert hp) u
  | none =>
    by_cases hq : isQuote c
    · rw [quoteStep, if_pos hq]
      exact resume_openQuote h.mode hq u t
    · rw [quoteStep, if_neg hq]
      rw [Bool.not_eq_true] at hq
      exact h.resume_other hq (fun he => hempty ⟨rfl, he⟩) (fun hc => hend ⟨rfl, hc⟩) u

theorem isQuote_of_mem_quoteStep {quote : Option Char} (hquote : ∀ q ∈ quote, isQuote q) {c q : Char}
    (hq : q ∈ quoteStep quote c) : isQuote q := by
  cases quote with
  | some q' =>
    by_cases hc : c = q'
    · simp [quoteStep, hc] at hq
    · rw [quoteStep, if_neg hc] at hq
      exact hquote q hq
  | none =>
    by_cases hc : isQuote c
    · rw [quoteStep, if_pos hc, Option.mem_some_iff] at hq
      rwa [← hq]
    · simp [quoteStep, hc] at hq

/-- **In a start tag the machine gets to the first `>` outside quotes.** -/
theorem InTag.resume_splitTag (h : m.InTag i s) (t : List Char) {quote : Option Char}
    (hquote : ∀ q ∈ quote, isQuote q) {u : List Char}
    (hu : quote = none → u.getLast? = some '/' → t.head? ≠ some '>') :
    (m.atQuote quote).resume u t =
      match splitTag quote t with
      | some (a, b) => (m.endTag (u ++ a)).run b
      | none => .error (m.headFailure s (u ++ t)) := by
  induction t generalizing quote u with
  | nil =>
    rw [resume_nil_right, h.finish_atQuote]
    cases quote <;> simp [splitTag]
  | cons c t ih =>
    by_cases hend : quote = none ∧ c = '>'
    · obtain ⟨rfl, rfl⟩ := hend
      have hlast : u.getLast? ≠ some '/' := fun hl => hu rfl hl rfl
      rw [atQuote, h.resume_end, splitTag, if_pos rfl]
      dsimp only
      rw [List.append_nil, endTag, if_neg hlast]
    by_cases hempty : quote = none ∧ c = '/' ∧ t.head? = some '>'
    · obtain ⟨rfl, rfl, ht⟩ := hempty
      obtain ⟨t, rfl⟩ := List.head?_eq_some_iff.mp ht
      have hstep : quoteStep none '/' = none := rfl
      rw [atQuote, h.resume_empty, splitTag_cons hend, hstep, splitTag, if_pos rfl, Option.map_some]
      dsimp only
      rw [endTag_concat]
    · have hu' : quoteStep quote c = none → (u ++ [c]).getLast? = some '/' →
          t.head? ≠ some '>' := by
        intro hstep hl ht
        obtain rfl : c = '/' := by simpa using hl
        cases quote with
        | none => exact hempty ⟨rfl, rfl, ht⟩
        | some q =>
          have hq : '/' ≠ q := by
            rintro rfl
            exact absurd (hquote _ rfl) (by decide)
          simp [quoteStep, hq] at hstep
      rw [h.resume_step hquote hend hempty, ih (fun q => isQuote_of_mem_quoteStep hquote) hu',
        splitTag_cons hend]
      cases splitTag (quoteStep quote c) t <;> simp

/-! ## Declarations -/

/-- The machine reads the declaration `s`. -/
structure InDeclaration (m : Machine) (i : Nat) (s : Span) : Prop extends m.Reads i s where
  mode : m.mode = .head
  kind : s.kind = .declaration

theorem InDeclaration.pass (h : m.InDeclaration i s) (u : List Char) :
    (m.pass u).InDeclaration i s :=
  ⟨⟨h.current, h.span⟩, h.mode, h.kind⟩

/-- Another bracket depth. -/
def atDepth (m : Machine) (d : Nat) : Machine := { m with depth := d }

theorem InDeclaration.atDepth (h : m.InDeclaration i s) (d : Nat) :
    (m.atDepth d).InDeclaration i s :=
  ⟨⟨h.current, h.span⟩, h.mode, h.kind⟩

theorem InDeclaration.endHead (h : m.InDeclaration i s) : m.endHead = m.endSpan ['>'] := by
  rw [Machine.endHead, if_neg]
  rw [h.currentKind?, h.kind]
  decide

theorem InDeclaration.stepChar (h : m.InDeclaration i s) {c : Char} {t : List Char}
    (he : enclosure? m.depth c t = none) :
    m.stepChar c t = .ok (
      if c = '>' ∧ m.depth = 0 then (m.endSpan ['>'], t)
      else ((m.atDepth (depthAfter m.depth c)).pass [c], t)) := by
  rcases enclosure?_cases m.depth c t with ⟨-, he'⟩ | ⟨o, -, -, -, he'⟩ | ⟨hq, hblock, -⟩
  · exact absurd (he.symm.trans he') (by simp)
  · exact absurd (he.symm.trans he') (by simp)
  have hkind : m.currentKind? = some .declaration := by rw [h.currentKind?, h.kind]
  have hcomment : ¬ (0 < m.depth ∧ Opening.comment.mark <+: c :: t) := fun hp =>
    hblock hp.1 .comment (by simp [nestedOpenings]) hp.2
  have hinstruction : ¬ (0 < m.depth ∧ Opening.instruction.mark <+: c :: t) := fun hp =>
    hblock hp.1 .instruction (by simp [nestedOpenings]) hp.2
  rw [stepChar_head h.mode, stepHead, if_neg (by simp [hq]), if_neg (by simp [hkind])]
  by_cases hbracket : c = '[' ∨ c = ']'
  · have hend : ¬ (c = '>' ∧ m.depth = 0) := by
      rcases hbracket with rfl | rfl <;> simp
    rw [if_pos ⟨hkind, hbracket⟩, if_neg hend]
    rfl
  · rw [if_neg (fun hp => hbracket hp.2), if_neg hcomment, if_neg hinstruction, h.endHead]
    have hdepth : m.atDepth (depthAfter m.depth c) = m := by
      push Not at hbracket
      rw [depthAfter, if_neg hbracket.1, if_neg hbracket.2]
      rfl
    rw [hdepth]

theorem InDeclaration.resume_end (h : m.InDeclaration i s) (hdepth : m.depth = 0)
    (u t : List Char) : m.resume u ('>' :: t) = ((m.pass u).endSpan ['>']).run t := by
  have he : enclosure? (m.pass u).depth '>' t = none :=
    enclosure?_eq_none (by decide) fun hd => absurd hdepth (Nat.ne_of_gt hd)
  rw [resume_cons (by decide), (h.pass u).stepChar he, if_pos ⟨rfl, hdepth⟩]
  rfl

theorem InDeclaration.resume_other (h : m.InDeclaration i s) {c : Char} {t : List Char}
    (he : enclosure? m.depth c t = none) (hend : ¬ (c = '>' ∧ m.depth = 0)) (u : List Char) :
    m.resume u (c :: t) = (m.atDepth (depthAfter m.depth c)).resume (u ++ [c]) t := by
  by_cases hc : IsTerminator c
  · have hdepth : m.atDepth (depthAfter m.depth c) = m := by
      rcases hc with rfl | rfl <;> rfl
    rw [resume_terminator hc, hdepth]
  · have hend' : ¬ (c = '>' ∧ (m.pass u).depth = 0) := hend
    apply resume_move hc
    rw [(h.pass u).stepChar he, if_neg hend']
    rfl

theorem blockMode?_of_nested {o : Opening} (ho : o ∈ nestedOpenings) : ∃ x, blockMode? o = some x := by
  simp only [nestedOpenings, List.mem_cons, List.not_mem_nil, or_false] at ho
  rcases ho with rfl | rfl
  · exact ⟨_, rfl⟩
  · exact ⟨_, rfl⟩

/-- In a declaration the machine gets to the end of a quoted string or a block. -/
theorem InDeclaration.resume_enclosure (h : m.InDeclaration i s) {n : Nat} {c : Char}
    {mark t : List Char} (he : enclosure? m.depth c t = some (n, mark)) (u : List Char) :
    m.resume u (c :: t) =
      match splitAround mark (t.drop n) with
      | some (a, b) => m.resume (u ++ (c :: t.take n ++ a ++ mark)) b
      | none => .error (m.headFailure s (u ++ c :: t)) := by
  rcases enclosure?_cases m.depth c t with ⟨hq, he'⟩ | ⟨o, ho, hdepth, hp, he'⟩ | ⟨-, -, he'⟩
  · obtain ⟨rfl, rfl⟩ := Prod.mk.inj (Option.some.inj (he.symm.trans he'))
    rw [resume_quoted h.mode hq, List.drop_zero, List.take_zero]
    cases splitAround [c] t with
    | none => exact finish_inHead h.toReads rfl _
    | some p => rfl
  · obtain ⟨rfl, rfl⟩ := Prod.mk.inj (Option.some.inj (he.symm.trans he'))
    obtain ⟨x, hx⟩ := blockMode?_of_nested ho
    have hmark := cons_take_eq_mark o.length_mark_pos hp
    have ht : o.mark ++ t.drop (o.mark.length - 1) = c :: t := by
      rw [← hmark, List.cons_append, hmark, List.take_append_drop]
    have hblock := resume_block h.mode hdepth hx u (t.drop (o.mark.length - 1))
    rw [ht] at hblock
    rw [hblock, hmark]
    cases splitAround o.close (t.drop (o.mark.length - 1)) with
    | none => exact finish_inHead h.toReads (inHead_of_blockMode? hx) _
    | some p => rfl
  · exact absurd (he.symm.trans he') (by simp)

/-- **In a declaration the machine gets to the `>` that ends it.** -/
theorem InDeclaration.resume_splitDeclaration (h : m.InDeclaration i s) (u t : List Char) :
    m.resume u t =
      match splitDeclaration m.depth t with
      | some (a, b) => (((m.atDepth 0).pass (u ++ a)).endSpan ['>']).run b
      | none => .error (m.headFailure s (u ++ t)) := by
  generalize hd : m.depth = d
  fun_induction splitDeclaration d t generalizing m u with
  | case1 d =>
    have := finish_inHead h.toReads (rfl : Mode.head.inHead) u
    rw [with_mode h.mode] at this
    rw [resume_nil_right, this, List.append_nil]
  | case2 d c t n mark he hs =>
    subst hd
    rw [h.resume_enclosure he, hs]
  | case3 d c t n mark he a b hs _ ih =>
    subst hd
    rw [h.resume_enclosure he, hs]
    dsimp only
    rw [ih h _ rfl]
    have hc : c :: t = c :: t.take n ++ a ++ mark ++ b := by
      rw [List.append_assoc, List.append_assoc, ← List.append_assoc a, splitAround_eq hs,
        List.cons_append, List.take_append_drop]
    rw [hc]
    cases splitDeclaration m.depth b <;> simp
  | case4 d c t he hend =>
    subst hd
    obtain ⟨rfl, hdepth⟩ := hend
    rw [h.resume_end hdepth, ← hdepth]
    dsimp only
    rw [List.append_nil]
    rfl
  | case5 d c t he hend ih =>
    subst hd
    rw [h.resume_other he hend, ih (h.atDepth (depthAfter m.depth c)) _ rfl]
    cases splitDeclaration (depthAfter m.depth c) t <;> simp <;> rfl

end

end Machine

end XmlLocate
