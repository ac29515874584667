import XmlLocate.Proofs.LineStarts
import XmlLocate.Scan.Bytes.Turns

/-!
# Jumps over lines

A comment or a processing instruction between the brackets of a declaration is passed in one jump, which
records the lines that begin on the way. For each of them a slice of the bytes is taken that ends at the
target of the jump, so that none of them may begin behind it.

**Theorem (`Scanner.exists_jumpsTo`).** No line terminator reaches over the target, as it is just behind
a `>` or at the end. So the jump stays in range and ends at its target, and has recorded each place up to
there at which a line ends, once.

`JumpState` are the states of the loop. What one line does to them is `Passed.line`, and what holds of all
of them is `JumpState.passed`. The bytes need not be those of a text.
-/

namespace XmlLocate

variable {bytes : List UInt8} {start target pos : Nat} {starts lineStarts : Array Nat}

/-! ## Ends of lines -/

/-- A line that ends behind `pos` has a byte of its terminator there. -/
theorem exists_endsLine_byte {q : Nat} (h : EndsLine bytes q) (hq : pos < q) :
    ∃ k b, q = pos + k + 1 ∧ bytes[pos + k]? = some b ∧ endsLine b := by
  obtain ⟨k, rfl⟩ := Nat.exists_eq_add_of_lt hq
  rcases h with h | ⟨h, -⟩
  · exact ⟨k, 10, rfl, h, rfl⟩
  · exact ⟨k, 13, rfl, h, rfl⟩

theorem eq_or_eq_of_endsLine {b : UInt8} (h : endsLine b) : b = '\n'.toUInt8 ∨ b = '\r'.toUInt8 := by
  simpa [endsLine] using h

/-- Behind a line terminator a line ends, and in the middle of it none does. -/
theorem endsLine_iff_of_terminator {p q : Nat} {b : UInt8} (hb : bytes[p]? = some b)
    (hline : endsLine b) (hq : p < q) (hq' : q ≤ lineBehind bytes p b) :
    EndsLine bytes q ↔ q = lineBehind bytes p b := by
  obtain ⟨q, rfl⟩ := Nat.exists_eq_succ_of_ne_zero (Nat.ne_zero_of_lt hq)
  by_cases hpair : b = '\r'.toUInt8 ∧ bytes[p + 1]? = some '\n'.toUInt8
  · have hbehind : lineBehind bytes p b = p + 2 := if_pos hpair
    obtain ⟨rfl, hfeed⟩ := hpair
    rw [hbehind] at hq' ⊢
    obtain rfl | rfl : q = p ∨ q = p + 1 := by omega
    · -- Between the carriage return and the line feed.
      refine iff_of_false ?_ (by omega)
      rintro (h | ⟨-, h⟩)
      · cases hb.symm.trans h
      · exact h hfeed
    · exact iff_of_true (.inl hfeed) rfl
  · have hbehind : lineBehind bytes p b = p + 1 := if_neg hpair
    rw [hbehind] at hq' ⊢
    obtain rfl : q = p := by omega
    refine iff_of_true ?_ rfl
    rcases eq_or_eq_of_endsLine hline with rfl | rfl
    · exact .inl hb
    · exact .inr ⟨hb, fun hfeed => hpair ⟨rfl, hfeed⟩⟩

theorem getElem?_of_bytesBetween? {part : List UInt8} (h : bytesBetween? bytes pos target = some part)
    {k : Nat} (hk : pos + k < target) : part[k]? = bytes[pos + k]? := by
  obtain ⟨-, rfl⟩ := bytesBetween?_eq_some.mp h
  rw [List.getElem?_take_of_lt (by omega), List.getElem?_drop]

theorem length_of_bytesBetween? {part : List UInt8} (h : bytesBetween? bytes pos target = some part) :
    pos + part.length = target ∧ target ≤ bytes.length := by
  obtain ⟨hle, rfl⟩ := bytesBetween?_eq_some.mp h
  rw [List.length_take, List.length_drop]
  omega

/-- The first byte of a slice that ends a line, among those of all bytes. -/
theorem endsLine_of_findIdx? {part : List UInt8} {found : Nat} {b : UInt8}
    (hpart : bytesBetween? bytes pos target = some part) (hfound : part.findIdx? endsLine = some found)
    (hb : bytes[pos + found]? = some b) :
    pos + found < target ∧ endsLine b ∧ ∀ k < found, ∀ c, bytes[pos + k]? = some c → ¬ endsLine c := by
  obtain ⟨hlt, hline, hbefore⟩ := List.findIdx?_eq_some_iff_getElem.mp hfound
  have hlength := length_of_bytesBetween? hpart
  refine ⟨by omega, ?_, ?_⟩
  · rw [← getElem?_of_bytesBetween? hpart (by omega), List.getElem?_eq_getElem hlt] at hb
    rwa [Option.some.inj hb] at hline
  · intro k hk c hc
    rw [← getElem?_of_bytesBetween? hpart (by omega), List.getElem?_eq_getElem (by omega)] at hc
    exact Option.some.inj hc ▸ hbefore k hk

/-- It belongs to the next terminator: up to there no line ends. -/
theorem endsLine_iff_of_findIdx? {part : List UInt8} {found q : Nat} {b : UInt8}
    (hpart : bytesBetween? bytes pos target = some part) (hfound : part.findIdx? endsLine = some found)
    (hb : bytes[pos + found]? = some b) (hq : pos < q) (hq' : q ≤ lineBehind bytes (pos + found) b) :
    EndsLine bytes q ↔ q = lineBehind bytes (pos + found) b := by
  obtain ⟨-, hline, hbefore⟩ := endsLine_of_findIdx? hpart hfound hb
  by_cases hbehind : pos + found < q
  · exact endsLine_iff_of_terminator hb hline hbehind hq'
  · refine iff_of_false ?_ fun h => ?_
    · intro hends
      obtain ⟨k, c, rfl, hc, hc'⟩ := exists_endsLine_byte hends hq
      exact hbefore k (by omega) c hc hc'
    · have := lt_lineBehind bytes (pos + found) b
      omega

theorem not_endsLine_of_findIdx?_eq_none {part : List UInt8} {q : Nat}
    (hpart : bytesBetween? bytes pos target = some part) (hnone : part.findIdx? endsLine = none)
    (hq : pos < q) (hq' : q ≤ target) : ¬ EndsLine bytes q := by
  intro hends
  obtain ⟨k, c, rfl, hc, hc'⟩ := exists_endsLine_byte hends hq
  rw [← getElem?_of_bytesBetween? hpart (by omega)] at hc
  have hnot := List.findIdx?_eq_none_iff.mp hnone c (List.mem_of_getElem? hc)
  simp [hnot] at hc'

/-! ## Targets -/

/-- Where a jump may end: just behind a `>` or at the end of the bytes. -/
def IsLanding (bytes : List UInt8) (target : Nat) : Prop :=
  target = bytes.length ∨ ∃ p, target = p + 1 ∧ bytes[p]? = some '>'.toUInt8

theorem IsLanding.le_length (h : IsLanding bytes target) : target ≤ bytes.length := by
  rcases h with rfl | ⟨p, rfl, hp⟩
  · exact Nat.le_refl _
  · exact (List.getElem?_eq_some_iff.mp hp).1

/-- No pair of terminators has its first part before the target and its second part behind it. -/
theorem IsLanding.not_splits (h : IsLanding bytes target) {p : Nat} (hp : target = p + 1) :
    ¬ (bytes[p]? = some '\r'.toUInt8 ∧ bytes[target]? = some '\n'.toUInt8) := by
  rintro ⟨hreturn, hfeed⟩
  rcases h with rfl | ⟨p', hp', hgt⟩
  · simp at hfeed
  · obtain rfl : p = p' := Nat.succ.inj (hp.symm.trans hp')
    cases hreturn.symm.trans hgt

/-- A line that ends before the target ends up to it. -/
theorem IsLanding.lineBehind_le (h : IsLanding bytes target) {p : Nat} {b : UInt8}
    (hb : bytes[p]? = some b) (hp : p < target) : lineBehind bytes p b ≤ target := by
  unfold lineBehind
  split
  next hpair =>
    obtain ⟨rfl, hfeed⟩ := hpair
    by_contra hlt
    obtain rfl : target = p + 1 := by omega
    exact h.not_splits rfl ⟨hb, hfeed⟩
  next => exact hp

/-! ## The loop -/

/-- The states of a jump to `target` that begins at `start`: where the next slice is taken, and the lines
that are recorded by then. -/
inductive JumpState (bytes : List UInt8) (target start : Nat) (starts : Array Nat) :
    Nat → Array Nat → Prop where
  | start : JumpState bytes target start starts start starts
  | line {pos found : Nat} {lineStarts : Array Nat} {part : List UInt8} {b : UInt8}
      (h : JumpState bytes target start starts pos lineStarts)
      (hpart : bytesBetween? bytes pos target = some part)
      (hfound : part.findIdx? endsLine = some found) (hb : bytes[pos + found]? = some b) :
      JumpState bytes target start starts (lineBehind bytes (pos + found) b)
        (lineStarts.push (lineBehind bytes (pos + found) b))

/-- From `start` to `pos` each place at which a line ends was recorded once, in order. -/
structure Passed (bytes : List UInt8) (start : Nat) (starts : Array Nat) (pos : Nat)
    (lineStarts : Array Nat) : Prop where
  start_le : start ≤ pos
  recorded : ∃ lines : List Nat, lineStarts = starts ++ lines ∧ lines.Pairwise (· < ·) ∧
    ∀ q, q ∈ lines ↔ start < q ∧ q ≤ pos ∧ EndsLine bytes q

theorem passed_start : Passed bytes start starts start starts where
  start_le := Nat.le_refl start
  recorded := by
    refine ⟨[], (Array.appendList_nil).symm, .nil, ?_⟩
    intro q
    simp only [List.not_mem_nil, false_iff]
    omega

/-- Up to `target` no more lines end. -/
theorem Passed.of_forall_not (h : Passed bytes start starts pos lineStarts) (hle : pos ≤ target)
    (hnone : ∀ q, pos < q → q ≤ target → ¬ EndsLine bytes q) :
    Passed bytes start starts target lineStarts where
  start_le := h.start_le.trans hle
  recorded := by
    obtain ⟨lines, hlines, hsorted, hmem⟩ := h.recorded
    refine ⟨lines, hlines, hsorted, ?_⟩
    intro q
    rw [hmem]
    constructor
    · rintro ⟨hstart, hq, hends⟩
      exact ⟨hstart, hq.trans hle, hends⟩
    · rintro ⟨hstart, hq, hends⟩
      exact ⟨hstart, Nat.le_of_not_lt fun hlt => hnone q hlt hq hends, hends⟩

/-- A line more is passed. -/
theorem Passed.line (h : Passed bytes start starts pos lineStarts) {next : Nat} (hlt : pos < next)
    (hnext : ∀ q, pos < q → q ≤ next → (EndsLine bytes q ↔ q = next)) :
    Passed bytes start starts next (lineStarts.push next) where
  start_le := h.start_le.trans hlt.le
  recorded := by
    obtain ⟨lines, rfl, hsorted, hmem⟩ := h.recorded
    refine ⟨lines ++ [next], ?_, ?_, ?_⟩
    · apply Array.ext'
      simp
    · refine List.pairwise_append.mpr ⟨hsorted, List.pairwise_singleton _ _, ?_⟩
      intro p hp q hq
      obtain rfl := List.mem_singleton.mp hq
      exact Nat.lt_of_le_of_lt ((hmem p).mp hp).2.1 hlt
    · intro q
      rw [List.mem_append, List.mem_singleton, hmem]
      constructor
      · rintro (⟨hstart, hq, hends⟩ | rfl)
        · exact ⟨hstart, hq.trans hlt.le, hends⟩
        · exact ⟨Nat.lt_of_le_of_lt h.start_le hlt, Nat.le_refl _, (hnext q hlt (Nat.le_refl q)).mpr rfl⟩
      · rintro ⟨hstart, hq, hends⟩
        by_cases hold : q ≤ pos
        · exact .inl ⟨hstart, hold, hends⟩
        · exact .inr ((hnext q (Nat.lt_of_not_le hold) hq).mp hends)

/-- **What holds in each state of a jump.** -/
theorem JumpState.passed (h : JumpState bytes target start starts pos lineStarts)
    (htarget : IsLanding bytes target) (hle : start ≤ target) :
    pos ≤ target ∧ Passed bytes start starts pos lineStarts := by
  induction h with
  | start => exact ⟨hle, passed_start⟩
  | @line pos found lineStarts part b _ hpart hfound hb ih =>
    obtain ⟨-, hpassed⟩ := ih
    obtain ⟨hlt, -, -⟩ := endsLine_of_findIdx? hpart hfound hb
    refine ⟨htarget.lineBehind_le hb hlt, hpassed.line ?_ ?_⟩
    · have := lt_lineBehind bytes (pos + found) b
      omega
    · intro q hq hq'
      exact endsLine_iff_of_findIdx? hpart hfound hb hq hq'

/-- A jump goes through its states and ends where no more lines do. -/
theorem JumpState.exists_passLines (h : JumpState bytes target start starts pos lineStarts)
    (htarget : IsLanding bytes target) (hle : start ≤ target) :
    ∃ p, passLines bytes target pos lineStarts = .ok p ∧
      JumpState bytes target start starts p.1 p.2 ∧
      ∀ q, p.1 < q → q ≤ target → ¬ EndsLine bytes q := by
  fun_induction passLines bytes target pos lineStarts with
  | case1 pos lineStarts hpart =>
    -- A slice that is not there would begin behind the target.
    have hslice := bytesBetween?_eq_some.mpr ⟨⟨(h.passed htarget hle).1, htarget.le_length⟩, rfl⟩
    cases hpart.symm.trans hslice
  | case2 pos lineStarts part hpart hnone =>
    exact ⟨(pos, lineStarts), rfl, h, fun q => not_endsLine_of_findIdx?_eq_none hpart hnone⟩
  | case3 pos lineStarts part hpart found hfound hb =>
    have hlength := length_of_bytesBetween? hpart
    have hlt := (List.findIdx?_eq_some_iff_findIdx_eq.mp hfound).1
    have := List.getElem?_eq_none_iff.mp hb
    omega
  | case4 pos lineStarts part hpart found hfound b hb _ next ih =>
    exact ih (h.line hpart hfound hb)

/-- The two terminators of a line in a comment are one. -/
example : passLines (textBytes "<!--\r\n-->".toList) 9 0 #[0] = .ok (6, #[0, 6]) := by
  decide +kernel

/-! ## Jumps of a scanner -/

theorem prefix_of_findBytes? {mark : List UInt8} {n : Nat} (h : findBytes? mark bytes = some n) :
    mark <+: bytes.drop n := by
  induction bytes generalizing n with
  | nil => cases h
  | cons b t ih =>
    rw [findBytes?] at h
    split at h
    next hprefix =>
      obtain rfl := Option.some.inj h
      exact List.isPrefixOf_iff_prefix.mp hprefix
    next =>
      obtain ⟨k, hk, rfl⟩ := Option.map_eq_some_iff.mp h
      exact ih hk

namespace Scanner

variable {σ : Scanner}

/-- A jump of the scanner to `target`. -/
structure JumpsTo (bytes : List UInt8) (σ : Scanner) (target : Nat) : Prop where
  isLanding : IsLanding bytes target
  /-- A pair of terminators is not cut in two. -/
  not_splits : ∀ p, target = p + 1 →
    ¬ (bytes[p]? = some '\r'.toUInt8 ∧ bytes[target]? = some '\n'.toUInt8)
  lt_target : σ.pos < target
  /-- Each slice is in range, -/
  sliced : ∀ pos lineStarts, JumpState bytes target σ.pos σ.lineStarts pos lineStarts →
    pos ≤ target ∧ target ≤ bytes.length
  /-- and where the jump ends, what it passed is recorded. -/
  lands : ∃ lineStarts, σ.skipTo bytes target = .ok { σ with pos := target, lineStarts } ∧
    Passed bytes σ.pos σ.lineStarts target lineStarts

theorem jumpsTo_of_isLanding (htarget : IsLanding bytes target) (hlt : σ.pos < target) :
    σ.JumpsTo bytes target where
  isLanding := htarget
  not_splits _ hp := htarget.not_splits hp
  lt_target := hlt
  sliced _ _ h := ⟨(h.passed htarget hlt.le).1, htarget.le_length⟩
  lands := by
    obtain ⟨p, hp, hstate, hnone⟩ := JumpState.start.exists_passLines htarget hlt.le
    obtain ⟨hle, hpassed⟩ := hstate.passed htarget hlt.le
    refine ⟨p.2, ?_, hpassed.of_forall_not hle hnone⟩
    unfold skipTo
    rw [hp]
    show Except.ok { σ with pos := max p.1 target, lineStarts := p.2 } = _
    rw [Nat.max_eq_right hle]

/-- **A comment or a processing instruction is passed in one jump,** which ends just behind its `>`, or at
the end if it has none. -/
theorem exists_jumpsTo {o : Opening} (ho : o = .comment ∨ o = .instruction)
    (hmark : σ.lookahead bytes o.mark = .ok true) :
    ∃ target, σ.skipBlock bytes o = σ.skipTo bytes target ∧ σ.JumpsTo bytes target := by
  have hpos := o.length_mark_pos
  obtain ⟨-, hle⟩ := lookahead_eq_true hmark
  unfold skipBlock
  dsimp only
  rw [bytesFrom?_eq_some.mpr ⟨hle, rfl⟩, require_some_bind]
  cases hfound : findBytes? (asciiBytes o.close) (bytes.drop (σ.pos + o.mark.length)) with
  | none => exact ⟨bytes.length, rfl, jumpsTo_of_isLanding (.inl rfl) (by omega)⟩
  | some found =>
    refine ⟨σ.pos + o.mark.length + found + o.close.length, rfl, jumpsTo_of_isLanding ?_ (by omega)⟩
    obtain ⟨init, hclose⟩ : ∃ init, o.close = init ++ ['>'] := by
      rcases ho with rfl | rfl
      · exact ⟨['-', '-'], rfl⟩
      · exact ⟨['?'], rfl⟩
    obtain ⟨rest, hrest⟩ := prefix_of_findBytes? hfound
    refine .inr ⟨σ.pos + o.mark.length + found + init.length, ?_, ?_⟩
    · rw [hclose, List.length_append]
      rfl
    · rw [List.drop_drop] at hrest
      have hget := congrArg (·[init.length]?) hrest
      simpa [asciiBytes, hclose, List.getElem?_drop] using hget.symm

end Scanner

end XmlLocate
