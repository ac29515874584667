import XmlLocate.Proofs.Relocation
import XmlLocate.Proofs.SteppingMarkup

/-!
# Runs at other offsets

Two states of the automaton of `Scan/Stepwise` may differ in the offsets they have recorded and in
nothing else, as they do when what was read so far is longer in one text than in the other. With
`Machine.Relocated f t`, the function `f` takes the offsets of the first to those of the second, also
those of the text `t` that both have still to read.

**Theorem (`Machine.Relocated.run`).** From such states the automaton gives the same spans at the other
offsets, or fails for the same cause at the other offset.

No step looks at an offset, but for the question whether a run of text is empty (`pending`). So each
part of a step leads from such states to such states, and a step does.
-/

namespace XmlLocate

theorem SameUpTo.bind {α β γ δ : Type} {f : Nat → Nat} {R : α → β → Prop} {S : γ → δ → Prop}
    {x : Except ScanError α} {y : Except ScanError β} {g : α → Except ScanError γ}
    {h : β → Except ScanError δ} (hxy : SameUpTo f R x y)
    (hgh : ∀ a b, x = .ok a → R a b → SameUpTo f S (g a) (h b)) : SameUpTo f S (x >>= g) (y >>= h) := by
  cases hxy with
  | ok hab => exact hgh _ _ rfl hab
  | error hcause hoffset => exact .error hcause hoffset

namespace Machine

/-! ## States -/

/-- The state after the rest of a text. -/
def read (m : Machine) (t : List Char) : Except ScanError Machine :=
  match t with
  | [] => .ok m
  | c :: t =>
    match h : m.step (c :: t) with
    | .error e => .error e
    | .ok (m, rest) =>
      have := length_step h
      m.read rest
termination_by t.length
decreasing_by simp only [List.length_cons]; omega

theorem read_nil (m : Machine) : m.read [] = .ok m := by
  rw [read]

theorem read_cons (m : Machine) (c : Char) (t : List Char) :
    m.read (c :: t) = m.step (c :: t) >>= fun p => p.1.read p.2 := by
  rw [read]
  split
  · rename_i e h
    rw [h]
    rfl
  · rename_i m' rest h
    exact (congrArg (· >>= fun p => p.1.read p.2) h).symm

theorem run_eq_read (m : Machine) (t : List Char) : m.run t = m.read t >>= finish := by
  fun_induction read m t with
  | case1 m => exact run_nil m
  | case2 m c t e h =>
    rw [run_cons, h]
    rfl
  | case3 m c t m' r h _ ih =>
    rw [run_cons, h]
    exact ih

/-- With `t` still to be read, which ends at `stop` in the first text, two states differ in offsets
alone. -/
structure Relocated (f : Nat → Nat) (stop : Nat) (t : List Char) (m m' : Machine) : Prop where
  zero : f 0 = 0
  stop_eq : m.offset + byteLength t = stop
  offset : ∀ n ≤ byteLength t, f (m.offset + n) = m'.offset + n
  mode : m'.mode = m.mode
  depth : m'.depth = m.depth
  current : m'.current = m.current
  opened : m'.opened = m.opened
  markupStart : m'.markupStart = f m.markupStart
  textStart : m'.textStart = f m.textStart
  textStart_le : m.textStart ≤ m.offset ∧ m'.textStart ≤ m'.offset
  pending : m.textStart < m.offset ↔ m'.textStart < m'.offset
  spans : m'.spans = m.spans.map (Span.relocate id f)

namespace Relocated

variable {f : Nat → Nat} {stop : Nat} {t : List Char} {m m' : Machine}

/-- Before anything is read. -/
theorem empty (hf : ∀ n ≤ byteLength t, f n = n) :
    Relocated f (byteLength t) t Machine.empty Machine.empty := by
  have hzero := hf 0 (Nat.zero_le _)
  refine
    { zero := hzero
      stop_eq := Nat.zero_add _
      offset := ?_
      mode := rfl
      depth := rfl
      current := rfl
      opened := rfl
      markupStart := hzero.symm
      textStart := hzero.symm
      textStart_le := ⟨Nat.le_refl _, Nat.le_refl _⟩
      pending := Iff.rfl
      spans := Array.map_empty.symm }
  intro n hn
  show f (0 + n) = 0 + n
  rw [Nat.zero_add]
  exact hf n hn

theorem offset_eq (h : Relocated f stop t m m') : m'.offset = f m.offset :=
  (h.offset 0 (Nat.zero_le _)).symm

theorem size_eq (h : Relocated f stop t m m') : m'.spans.size = m.spans.size := by
  rw [h.spans, Array.size_map]

theorem getElem?_eq (h : Relocated f stop t m m') (i : Nat) :
    m'.spans[i]? = m.spans[i]?.map (Span.relocate id f) := by
  rw [h.spans, Array.getElem?_map]

theorem currentKind?_eq (h : Relocated f stop t m m') : m'.currentKind? = m.currentKind? := by
  unfold currentKind?
  rw [h.current]
  cases m.current with
  | none => rfl
  | some i =>
    simp only [Option.bind_some, h.getElem?_eq, Option.map_map]
    rfl

/-- What is read need not be of the same length, if `f` takes its end to the other end. -/
theorem jump (h : Relocated f stop t m m') {u u' r : List Char}
    (hu : u = u' ∨ 0 < byteLength u ∧ 0 < byteLength u')
    (hr : ∀ n ≤ byteLength r, f (m.offset + byteLength u + n) = m'.offset + byteLength u' + n) :
    Relocated f (m.offset + byteLength u + byteLength r) r (m.pass u) (m'.pass u') := by
  have hle := h.textStart_le
  have hpending := h.pending
  refine { h with stop_eq := rfl, offset := hr, textStart_le := ?_, pending := ?_ }
  · show m.textStart ≤ m.offset + byteLength u ∧ m'.textStart ≤ m'.offset + byteLength u'
    omega
  · show m.textStart < m.offset + byteLength u ↔ m'.textStart < m'.offset + byteLength u'
    rcases hu with rfl | hu
    · omega
    · omega

theorem pass {u : List Char} (h : Relocated f stop (u ++ t) m m') :
    Relocated f stop t (m.pass u) (m'.pass u) := by
  have hstop := h.stop_eq
  have hlength := byteLength_append u t
  have hjump : Relocated f (m.offset + byteLength u + byteLength t) t (m.pass u) (m'.pass u) := by
    refine h.jump (.inl rfl) ?_
    intro n hn
    rw [Nat.add_assoc, Nat.add_assoc]
    exact h.offset _ (by omega)
  rwa [Nat.add_assoc, ← hlength, hstop] at hjump

theorem withMode (h : Relocated f stop t m m') (x : Mode) :
    Relocated f stop t { m with mode := x } { m' with mode := x } :=
  { h with mode := rfl }

theorem push (h : Relocated f stop t m m') (kind : SpanKind) {start start' : Nat}
    (hstart : start' = f start) {o o' : Option Nat} (ho : o' = o.map f) :
    Relocated f stop t (m.push kind start o) (m'.push kind start' o') := by
  refine { h with spans := ?_ }
  show m'.spans.push _ = (m.spans.push _).map _
  rw [Array.map_push, h.size_eq, hstart, ho, ← h.spans]
  rfl

theorem modify (h : Relocated f stop t m m') (i : Nat) {g g' : Span → Span}
    (hg : ∀ s, g' (s.relocate id f) = (g s).relocate id f) :
    Relocated f stop t (m.modify i g) (m'.modify i g') := by
  refine { h with spans := ?_ }
  show m'.spans.modify i g' = (m.spans.modify i g).map _
  apply Array.ext_getElem?
  intro j
  rw [Array.getElem?_modify, h.getElem?_eq, Array.getElem?_map, Array.getElem?_modify]
  split_ifs
  · rw [Option.map_map, Option.map_map]
    congr 1
    funext s
    exact hg s
  · rfl

theorem setStop (h : Relocated f stop t m m') (i : Nat) :
    Relocated f stop t (m.modify i ({ · with stop := some m.offset }))
      (m'.modify i ({ · with stop := some m'.offset })) := by
  refine h.modify i ?_
  intro s
  rw [h.offset_eq]
  rfl

theorem toContent (h : Relocated f stop t m m') : Relocated f stop t m.toContent m'.toContent :=
  { h with
    mode := rfl
    current := rfl
    textStart := h.offset_eq
    textStart_le := ⟨Nat.le_refl _, Nat.le_refl _⟩
    pending := iff_of_false (Nat.lt_irrefl _) (Nat.lt_irrefl _) }

theorem withOpened (h : Relocated f stop t m m') (is : List Nat) :
    Relocated f stop t { m with opened := is } { m' with opened := is } :=
  { h with opened := rfl }

/-! ## Parts of steps -/

theorem flush (h : Relocated f stop t m m') : Relocated f stop t m.flush m'.flush := by
  unfold Machine.flush
  by_cases hlt : m.textStart < m.offset
  · rw [if_pos hlt, if_pos (h.pending.mp hlt)]
    exact h.push .text h.textStart (by rw [h.offset_eq]; rfl)
  · rw [if_neg hlt, if_neg (mt h.pending.mpr hlt)]
    exact h

theorem enter (h : Relocated f stop t m m') (o : Opening) : Relocated f stop t (m.enter o) (m'.enter o) := by
  by_cases ho : o = .closeTag
  · subst ho
    exact { h with mode := rfl, markupStart := h.offset_eq }
  · rw [enter_of_ne ho, enter_of_ne ho]
    refine push ?_ _ h.offset_eq rfl
    exact { h with mode := rfl, depth := rfl, current := congrArg some h.size_eq, markupStart := h.offset_eq }

theorem endSpan {u : List Char} (h : Relocated f stop (u ++ t) m m') :
    Relocated f stop t (m.endSpan u) (m'.endSpan u) := by
  have hpass := h.pass
  unfold Machine.endSpan
  dsimp only
  rw [hpass.current]
  cases (m.pass u).current with
  | none => exact hpass.toContent
  | some i => exact (hpass.setStop i).toContent

theorem endEmptyTag (h : Relocated f stop (['/', '>'] ++ t) m m') :
    Relocated f stop t m.endEmptyTag m'.endEmptyTag := by
  have hpass := h.pass
  have hends : ∀ s : Span, { s.relocate id f with
        headEnd := some (m'.pass ['/', '>']).offset, stop := some (m'.pass ['/', '>']).offset } =
      Span.relocate id f { s with
        headEnd := some (m.pass ['/', '>']).offset, stop := some (m.pass ['/', '>']).offset } := by
    intro s
    rw [hpass.offset_eq]
    rfl
  unfold Machine.endEmptyTag
  dsimp only
  rw [hpass.current]
  cases (m.pass ['/', '>']).current with
  | none => exact hpass.toContent
  | some i => exact (hpass.modify i hends).toContent

theorem endHead (h : Relocated f stop (['>'] ++ t) m m') : Relocated f stop t m.endHead m'.endHead := by
  unfold Machine.endHead
  rw [h.currentKind?_eq]
  split_ifs
  · have hpass := h.pass
    have hopened := hpass.opened
    have hhead : ∀ s : Span, { s.relocate id f with headEnd := some (m'.pass ['>']).offset } =
        Span.relocate id f { s with headEnd := some (m.pass ['>']).offset } := by
      intro s
      rw [hpass.offset_eq]
      rfl
    dsimp only
    rw [hpass.current, hopened]
    cases (m.pass ['>']).current with
    | none => exact hpass.toContent
    | some i => exact ((hpass.modify i hhead).toContent).withOpened _
  · exact h.endSpan

theorem endCloseTag (h : Relocated f stop (['>'] ++ t) m m') :
    SameUpTo f (Relocated f stop t) m.endCloseTag m'.endCloseTag := by
  unfold Machine.endCloseTag
  rw [h.opened]
  cases m.opened with
  | nil => exact .error_ofOffset h.markupStart _
  | cons i outer => exact .ok (((h.pass.setStop i).toContent).withOpened outer)

/-! ## Steps -/

/-- After a step the same text is left, and the states still differ in offsets alone. -/
def Next (f : Nat → Nat) (stop : Nat) (p p' : Machine × List Char) : Prop :=
  p'.2 = p.2 ∧ Relocated f stop p.2 p.1 p'.1

/-- A step that passes the mark at the beginning of the text. -/
theorem next_of_prefix {mark : List Char} (h : Relocated f stop t m m') (hp : mark <+: t)
    {g g' : Machine} (hg : ∀ r, Relocated f stop (mark ++ r) m m' → Relocated f stop r g g') :
    Next f stop (g, t.drop mark.length) (g', t.drop mark.length) := by
  obtain ⟨r, rfl⟩ := hp
  rw [List.drop_left]
  exact ⟨rfl, hg r h⟩

theorem stepTo {c : Char} (h : Relocated f stop (c :: t) m m') (o : Opening) :
    Next f stop (m.stepTo o c t) (m'.stepTo o c t) := by
  unfold Machine.stepTo
  split_ifs with hp
  · exact h.next_of_prefix hp fun _ h => h.endSpan
  · exact ⟨rfl, pass (u := [c]) h⟩

theorem stepNested {c : Char} (h : Relocated f stop (c :: t) m m') (o : Opening) :
    Next f stop (m.stepNested o c t) (m'.stepNested o c t) := by
  unfold Machine.stepNested
  split_ifs with hp
  · exact h.next_of_prefix hp fun _ h => (h.withMode .head).pass
  · exact ⟨rfl, pass (u := [c]) h⟩

theorem stepHead {c : Char} (h : Relocated f stop (c :: t) m m') :
    Next f stop (m.stepHead c t) (m'.stepHead c t) := by
  have hc : Relocated f stop ([c] ++ t) m m' := h
  have hmode : ∀ {r : List Char} (x : Mode), Relocated f stop r m m' →
      Relocated f stop r { m with mode := x } { m' with mode := x, depth := m.depth } :=
    fun _ h => { h with mode := rfl, depth := rfl }
  unfold Machine.stepHead
  rw [h.currentKind?_eq, h.depth]
  split_ifs with hq hempty hbracket hend hcomment hinstruction
  · exact ⟨rfl, (hmode _ hc).pass⟩
  · obtain ⟨rfl, -, hgt⟩ := hempty
    obtain ⟨t, rfl⟩ := List.head?_eq_some_iff.mp hgt
    exact ⟨rfl, h.endEmptyTag⟩
  · refine ⟨rfl, pass ?_⟩
    exact { hc with depth := rfl }
  · rw [hend.1] at hc
    exact ⟨rfl, hc.endHead⟩
  · exact h.next_of_prefix hcomment.2 fun _ h => (hmode _ h).pass
  · exact h.next_of_prefix hinstruction.2 fun _ h => (hmode _ h).pass
  · exact ⟨rfl, hc.pass⟩

theorem stepChar {c : Char} (h : Relocated f stop (c :: t) m m') :
    SameUpTo f (Next f stop) (m.stepChar c t) (m'.stepChar c t) := by
  have hc : Relocated f stop ([c] ++ t) m m' := h
  unfold Machine.stepChar
  rw [h.mode]
  cases m.mode with
  | content =>
    dsimp only
    split_ifs with hlt
    · subst hlt
      refine .ok (h.next_of_prefix (Opening.mark_prefix_ofText t) ?_)
      intro r hr
      rw [openMarkup_eq rfl, openMarkup_eq rfl]
      exact (hr.flush.enter _).pass
    · exact .ok ⟨rfl, hc.pass⟩
  | closeTag =>
    dsimp only
    split_ifs with hgt
    · subst hgt
      have hclose := hc.endCloseTag
      generalize m.endCloseTag = x at hclose ⊢
      generalize m'.endCloseTag = x' at hclose ⊢
      cases hclose with
      | ok h => exact .ok ⟨rfl, h⟩
      | error hcause hoffset => exact .error hcause hoffset
    · exact .ok ⟨rfl, hc.pass⟩
  | head => exact .ok h.stepHead
  | quoted q =>
    dsimp only
    split_ifs
    · exact .ok ⟨rfl, (hc.withMode .head).pass⟩
    · exact .ok ⟨rfl, hc.pass⟩
  | nestedComment => exact .ok (h.stepNested .comment)
  | nestedInstruction => exact .ok (h.stepNested .instruction)
  | comment => exact .ok (h.stepTo .comment)
  | cdata => exact .ok (h.stepTo .cdata)
  | instruction => exact .ok (h.stepTo .instruction)

/-- **A step leads to states that differ in offsets alone.** -/
theorem step {c : Char} (h : Relocated f stop (c :: t) m m') :
    SameUpTo f (Next f stop) (m.step (c :: t)) (m'.step (c :: t)) := by
  by_cases hpair : SplitsPair [c] t
  · obtain rfl : c = '\r' := by simpa using hpair.1
    obtain ⟨t, rfl⟩ := List.head?_eq_some_iff.mp hpair.2
    rw [step_pair, step_pair]
    exact .ok ⟨rfl, pass (u := ['\r', '\n']) h⟩
  · rw [step_eq hpair, step_eq hpair]
    split_ifs
    · exact .ok ⟨rfl, pass (u := [c]) h⟩
    · exact h.stepChar

/-! ## Runs -/

theorem read (h : Relocated f stop t m m') : SameUpTo f (Relocated f stop []) (m.read t) (m'.read t) := by
  induction hn : t.length using Nat.strong_induction_on generalizing t m m' with
  | _ n ih =>
  subst hn
  cases t with
  | nil =>
    rw [read_nil, read_nil]
    exact .ok h
  | cons c t =>
    rw [read_cons, read_cons]
    refine h.step.bind ?_
    rintro ⟨n, r⟩ ⟨n', r'⟩ hstep ⟨hr, hnext⟩
    obtain rfl : r' = r := hr
    exact ih _ (Nat.lt_succ_of_le (length_step hstep)) hnext rfl

theorem finish (h : Relocated f stop [] m m') : SameUpTo f (SameSpans f) m.finish m'.finish := by
  have hstart : ∀ i : Nat, (m'.spans[i]?.map Span.start).getD 0 =
      f ((m.spans[i]?.map Span.start).getD 0) := by
    intro i
    rw [h.getElem?_eq]
    cases m.spans[i]? with
    | none => exact h.zero.symm
    | some s => rfl
  unfold Machine.finish
  rw [h.mode, h.current, h.opened, h.currentKind?_eq]
  dsimp only
  split
  · exact .error_ofOffset (hstart _) _
  · split_ifs
    · exact .error_ofOffset h.markupStart _
    · exact .ok h.spans
  · exact .error_ofOffset (hstart _) _

/-- **Runs from states that differ in offsets alone** give the same spans at other offsets. -/
theorem run (h : Relocated f stop t m m') : SameUpTo f (SameSpans f) (m.run t) (m'.run t) := by
  rw [run_eq_read, run_eq_read]
  exact h.read.bind fun _ _ _ h => h.finish

end Relocated

end Machine

end XmlLocate
