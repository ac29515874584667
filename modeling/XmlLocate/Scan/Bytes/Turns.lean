import Mathlib.Tactic.SplitIfs
import XmlLocate.Scan.Bytes

/-!
# Turns of a scan of bytes

What one turn of the loop can do, whatever the bytes are: `Turn` has a case for each. In every case the
scan gets on and stays within the bytes, so the loop ends.
-/

namespace XmlLocate

theorem require_eq_ok {α : Type} {x : Option α} {a : α} : Fault.require x = .ok a ↔ x = some a := by
  cases x <;> simp [Fault.require]

theorem require_some_bind {α β : Type} (a : α) (f : α → Except Fault β) :
    Fault.require (some a) >>= f = f a := rfl

theorem bytesFrom?_eq_some {bytes rest : List UInt8} {start : Nat} :
    bytesFrom? bytes start = some rest ↔ start ≤ bytes.length ∧ bytes.drop start = rest := by
  rw [bytesFrom?, Option.ite_none_right_eq_some, Option.some_inj]

theorem bytesBetween?_eq_some {bytes part : List UInt8} {start stop : Nat} :
    bytesBetween? bytes start stop = some part ↔ (start ≤ stop ∧ stop ≤ bytes.length) ∧
      (bytes.drop start).take (stop - start) = part := by
  rw [bytesBetween?, Option.ite_none_right_eq_some, Option.some_inj]

theorem lt_lineBehind (bytes : List UInt8) (pos : Nat) (b : UInt8) :
    pos < lineBehind bytes pos b := by
  unfold lineBehind
  split <;> omega

theorem lineBehind_le {bytes : List UInt8} {pos : Nat} (h : pos < bytes.length) (b : UInt8) :
    lineBehind bytes pos b ≤ bytes.length := by
  unfold lineBehind
  split
  next hpair => exact (List.getElem?_eq_some_iff.mp hpair.2).1
  next => exact h

theorem passLines_le {bytes : List UInt8} {target pos : Nat} {starts : Array Nat}
    {p : Nat × Array Nat} (h : passLines bytes target pos starts = .ok p) :
    p.1 ≤ target ∧ target ≤ bytes.length := by
  fun_induction passLines bytes target pos starts with
  | case1 => cases h
  | case2 pos starts part hpart =>
    obtain ⟨hle, -⟩ := bytesBetween?_eq_some.mp hpart
    obtain rfl := Except.ok.inj h
    exact hle
  | case3 => cases h
  | case4 pos starts part hpart found hfound b hb _ next ih => exact ih h

theorem add_length_le_of_prefix_drop {bytes mark : List UInt8} {pos : Nat}
    (h : mark <+: bytes.drop pos) (hpos : pos ≤ bytes.length) : pos + mark.length ≤ bytes.length := by
  have := h.length_le
  rw [List.length_drop] at this
  omega

@[simp] theorem length_asciiBytes (t : List Char) : (asciiBytes t).length = t.length := by
  simp [asciiBytes]

namespace Scanner

variable {bytes : List UInt8} {σ σ' : Scanner}

/-- What is opened begins with its mark. -/
theorem mark_prefix_openingOf {rest : List UInt8} :
    asciiBytes (openingOf rest).mark <+: '<'.toUInt8 :: rest := by
  have hhead : ∀ {c : Char}, rest.head? = some c.toUInt8 →
      asciiBytes ['<', c] <+: '<'.toUInt8 :: rest := by
    intro c hc
    obtain ⟨t, rfl⟩ : ∃ t, rest = c.toUInt8 :: t := List.head?_eq_some_iff.mp hc
    exact ⟨t, rfl⟩
  have hbegins : ∀ {t : List Char}, (asciiBytes t).isPrefixOf rest →
      asciiBytes ('<' :: t) <+: '<'.toUInt8 :: rest := by
    intro t ht
    exact List.cons_prefix_cons.mpr ⟨rfl, List.isPrefixOf_iff_prefix.mp ht⟩
  unfold openingOf
  split_ifs with h1 h2 h3 h4 h5
  · exact hhead h1
  · exact hhead h2
  · exact hbegins h3
  · exact hbegins h4
  · exact hhead h5
  · exact ⟨rest, rfl⟩

/-! ## What a turn can do -/

/-- What a scanner can be behind the byte at its offset. -/
inductive Turn (bytes : List UInt8) (σ : Scanner) : Scanner → Prop where
  /-- It goes on, and records lines. -/
  | pass {pos : Nat} {lineStarts : Array Nat} (hlt : σ.pos < pos) (hle : pos ≤ bytes.length)
      (hcontent : σ.state = .content →
        ∀ p, σ.pos ≤ p → p < pos → bytes[p]? ≠ some '<'.toUInt8) :
      Turn bytes σ { σ with pos, lineStarts }
  /-- Quotes open and close in a head. -/
  | quote {state : ScanState} (hstate : σ.state.inHead) (hstate' : state.inHead)
      (hle : σ.pos + 1 ≤ bytes.length) : Turn bytes σ (σ.shift state)
  /-- Brackets open and close in a declaration. -/
  | bracket {depth i : Nat} {s : Span} (hstate : σ.state = .head) (hcurrent : σ.current = some i)
      (hs : σ.spans[i]? = some s) (hkind : s.kind = .declaration) (hle : σ.pos + 1 ≤ bytes.length) :
      Turn bytes σ ({ σ with depth }.advance 1)
  | beginCloseTag (hstate : σ.state = .content) (hle : σ.pos + 2 ≤ bytes.length) :
      Turn bytes σ { σ.endText with markupStart := σ.pos, state := .closeTag, pos := σ.pos + 2 }
  | begin {o : Opening} (ho : o ≠ .closeTag) (hstate : σ.state = .content)
      (hle : σ.pos + o.mark.length ≤ bytes.length) :
      Turn bytes σ
        ({ σ.endText with
          markupStart := σ.pos, state := (kindAndState o).2, pos := σ.pos + o.mark.length,
          current := some σ.endText.spans.size, depth := 0 }.pushSpan (kindAndState o).1 σ.pos none)
  /-- A construct other than an element ends. -/
  | endConstruct {i n : Nat} {s : Span} (hstate : σ.state.body?.isSome ∨ s.kind ≠ .element)
      (hcurrent : σ.current = some i) (hs : σ.spans[i]? = some s) (hn : 0 < n)
      (hle : σ.pos + n ≤ bytes.length) :
      Turn bytes σ { σ with
        pos := σ.pos + n, state := .content, textStart := σ.pos + n, current := none,
        spans := σ.spans.setIfInBounds i { s with stop := some (σ.pos + n) } }
  | endEmptyTag {i : Nat} {s : Span} (hstate : σ.state = .head) (hcurrent : σ.current = some i)
      (hs : σ.spans[i]? = some s) (hkind : s.kind = .element) (hle : σ.pos + 2 ≤ bytes.length) :
      Turn bytes σ { σ with
        pos := σ.pos + 2, state := .content, textStart := σ.pos + 2, current := none,
        spans := σ.spans.setIfInBounds i
          { s with headEnd := some (σ.pos + 2), stop := some (σ.pos + 2) } }
  | endStartTag {i : Nat} {s : Span} (hstate : σ.state = .head) (hcurrent : σ.current = some i)
      (hs : σ.spans[i]? = some s) (hkind : s.kind = .element) (hle : σ.pos + 1 ≤ bytes.length) :
      Turn bytes σ { σ with
        pos := σ.pos + 1, state := .content, textStart := σ.pos + 1, current := none,
        opened := σ.opened.push i,
        spans := σ.spans.setIfInBounds i { s with headEnd := some (σ.pos + 1) } }
  | endCloseTag {i : Nat} {s : Span} {outer : OpenStack} (hstate : σ.state = .closeTag)
      (hpop : σ.opened.pop = (some i, outer)) (hs : σ.spans[i]? = some s)
      (hle : σ.pos + 1 ≤ bytes.length) :
      Turn bytes σ { σ with
        pos := σ.pos + 1, state := .content, textStart := σ.pos + 1, opened := outer,
        spans := σ.spans.setIfInBounds i { s with stop := some (σ.pos + 1) } }
  /-- What is read ends without a span. -/
  | lose {n : Nat} (hstate : σ.state.body?.isSome ∨ σ.state = .head) (hcurrent : σ.current = none)
      (hn : 0 < n) (hle : σ.pos + n ≤ bytes.length) :
      Turn bytes σ { σ with
        pos := σ.pos + n, state := .content, textStart := σ.pos + n, current := none }

theorem Turn.pos_lt (h : Turn bytes σ σ') : σ.pos < σ'.pos ∧ σ'.pos ≤ bytes.length := by
  cases h with
  | pass hlt hle => exact ⟨hlt, hle⟩
  | quote _ _ hle | bracket _ _ _ _ hle => exact ⟨Nat.lt_succ_self _, hle⟩
  | beginCloseTag _ hle => exact ⟨Nat.lt_add_of_pos_right (by decide), hle⟩
  | @begin o _ _ hle => exact ⟨Nat.lt_add_of_pos_right o.length_mark_pos, hle⟩
  | endConstruct _ _ _ hn hle | lose _ _ hn hle => exact ⟨Nat.lt_add_of_pos_right hn, hle⟩
  | endEmptyTag _ _ _ _ hle | endStartTag _ _ _ _ hle | endCloseTag _ _ _ hle =>
    exact ⟨Nat.lt_add_of_pos_right (by decide), hle⟩

theorem modifySpan_eq_ok {i : Nat} {f : Span → Span} (h : σ.modifySpan i f = .ok σ') :
    ∃ s, σ.spans[i]? = some s ∧ σ' = { σ with spans := σ.spans.setIfInBounds i (f s) } := by
  obtain ⟨s, hs, h⟩ := bind_eq_ok h
  exact ⟨s, require_eq_ok.mp hs, (Except.ok.inj h).symm⟩

theorem currentKind?_eq_some {k : SpanKind} (h : σ.currentKind? = .ok (some k)) :
    ∃ i s, σ.current = some i ∧ σ.spans[i]? = some s ∧ s.kind = k := by
  unfold currentKind? at h
  split at h
  next => cases h
  next i hi =>
    obtain ⟨s, hs, h⟩ := bind_eq_ok h
    exact ⟨i, s, hi, require_eq_ok.mp hs, Option.some.inj (Except.ok.inj h)⟩

theorem lookahead_eq_true {t : List Char} (h : σ.lookahead bytes t = .ok true) :
    asciiBytes t <+: bytes.drop σ.pos ∧ σ.pos + t.length ≤ bytes.length := by
  obtain ⟨rest, hrest, h⟩ := bind_eq_ok h
  obtain ⟨hle, rfl⟩ := bytesFrom?_eq_some.mp (require_eq_ok.mp hrest)
  have hp := List.isPrefixOf_iff_prefix.mp (Except.ok.inj h)
  have := add_length_le_of_prefix_drop hp hle
  exact ⟨hp, by rwa [length_asciiBytes] at this⟩

/-- Outside content a byte can be passed. -/
theorem turn_advance (hlt : σ.pos < bytes.length)
    (hb : σ.state = .content → bytes[σ.pos]? ≠ some '<'.toUInt8) :
    Turn bytes σ (σ.advance 1) := by
  refine .pass (Nat.lt_succ_self _) hlt fun hcontent p hp hp' => ?_
  obtain rfl : p = σ.pos := by omega
  exact hb hcontent

theorem skipTo_eq_ok {target : Nat} (h : σ.skipTo bytes target = .ok σ') :
    target ≤ bytes.length ∧ ∃ lineStarts, σ' = { σ with pos := target, lineStarts } := by
  obtain ⟨p, hp, h⟩ := bind_eq_ok h
  obtain ⟨hle, hlen⟩ := passLines_le hp
  refine ⟨hlen, p.2, ?_⟩
  rw [← Except.ok.inj h]
  simp only [Nat.max_eq_right hle]

theorem turn_skipBlock {o : Opening} (hstate : σ.state = .head)
    (h : σ.skipBlock bytes o = .ok σ') : Turn bytes σ σ' := by
  have hmark := o.length_mark_pos
  obtain ⟨rest, hrest, h⟩ := bind_eq_ok h
  obtain ⟨hle, -⟩ := bytesFrom?_eq_some.mp (require_eq_ok.mp hrest)
  have hcontent : σ.state ≠ .content := by simp [hstate]
  split at h
  · obtain ⟨hlen, lineStarts, rfl⟩ := skipTo_eq_ok h
    exact .pass (by omega) hlen fun hc => absurd hc hcontent
  · obtain ⟨hlen, lineStarts, rfl⟩ := skipTo_eq_ok h
    exact .pass (by omega) hlen fun hc => absurd hc hcontent

theorem turn_skipSubsetMarkup (hlt : σ.pos < bytes.length) (hstate : σ.state = .head)
    (h : σ.skipSubsetMarkup bytes = .ok σ') : Turn bytes σ σ' := by
  obtain ⟨found, -, h⟩ := bind_eq_ok h
  split at h
  · exact turn_skipBlock hstate h
  · obtain ⟨found, -, h⟩ := bind_eq_ok h
    split at h
    · exact turn_skipBlock hstate h
    · obtain rfl := Except.ok.inj h
      exact turn_advance hlt fun hc => absurd hc (by simp [hstate])

theorem turn_endConstruct {n : Nat} (hn : 0 < n) (hle : σ.pos + n ≤ bytes.length)
    (hstate : σ.state.body?.isSome ∨
      σ.state = .head ∧ ∀ i s, σ.current = some i → σ.spans[i]? = some s → s.kind ≠ .element)
    (h : σ.endConstruct n = .ok σ') : Turn bytes σ σ' := by
  unfold endConstruct endSpan at h
  split at h
  next i hi =>
    obtain ⟨s, hs, rfl⟩ := modifySpan_eq_ok h
    exact .endConstruct (hstate.imp_right fun h => h.2 i s hi hs) hi hs hn hle
  next hnone =>
    obtain rfl := Except.ok.inj h
    exact .lose (hstate.imp_right And.left) hnone hn hle

theorem turn_endEmptyTag (hle : σ.pos + 2 ≤ bytes.length) (hstate : σ.state = .head)
    (hkind : σ.currentKind? = .ok (some .element)) (h : σ.endEmptyTag = .ok σ') :
    Turn bytes σ σ' := by
  obtain ⟨i, s, hi, hs, hkind⟩ := currentKind?_eq_some hkind
  unfold endEmptyTag endSpan at h
  rw [hi] at h
  obtain ⟨s', hs', rfl⟩ := modifySpan_eq_ok h
  obtain rfl : s = s' := Option.some.inj (hs.symm.trans hs')
  exact .endEmptyTag hstate hi hs hkind hle

theorem turn_endHead (hle : σ.pos + 1 ≤ bytes.length) (hstate : σ.state = .head)
    (h : σ.endHead = .ok σ') : Turn bytes σ σ' := by
  obtain ⟨kind, hkind, h⟩ := bind_eq_ok h
  split at h
  next helement =>
    obtain ⟨i, s, hi, hs, hkind⟩ := currentKind?_eq_some (hkind.trans (by rw [helement]))
    obtain ⟨behind, hbehind, h⟩ := bind_eq_ok h
    unfold endSpan at hbehind
    rw [hi] at h hbehind
    obtain ⟨s', hs', rfl⟩ := modifySpan_eq_ok hbehind
    obtain rfl : s = s' := Option.some.inj (hs.symm.trans hs')
    obtain rfl := Except.ok.inj h
    exact .endStartTag hstate hi hs hkind hle
  next hother =>
    refine turn_endConstruct Nat.one_pos hle (.inr ⟨hstate, ?_⟩) h
    intro i s hi hs helement
    rw [currentKind?, hi] at hkind
    obtain ⟨s', hs', hkind⟩ := bind_eq_ok hkind
    obtain rfl : s = s' := Option.some.inj (hs.symm.trans (require_eq_ok.mp hs'))
    exact hother ((Except.ok.inj hkind).symm.trans (congrArg some helement))

theorem turn_stepHead {b : UInt8} (hlt : σ.pos < bytes.length) (hstate : σ.state = .head)
    (h : σ.stepHead bytes b = .ok σ') : Turn bytes σ σ' := by
  have hcontent : σ.state ≠ .content := by simp [hstate]
  have hhead : σ.state.inHead := by simp [hstate, ScanState.inHead]
  obtain ⟨kind, hkind, h⟩ := bind_eq_ok h
  split_ifs at h with hdouble hsingle hempty hopen hclose hnested hend
  · obtain rfl := Except.ok.inj h
    exact .quote hhead rfl hlt
  · obtain rfl := Except.ok.inj h
    exact .quote hhead rfl hlt
  · obtain ⟨hle, -⟩ := List.getElem?_eq_some_iff.mp hempty.2.2
    exact turn_endEmptyTag hle hstate (hkind.trans (by rw [hempty.2.1])) h
  · obtain ⟨i, s, hi, hs, hkind⟩ := currentKind?_eq_some (hkind.trans (by rw [hopen.2]))
    obtain rfl := Except.ok.inj h
    exact .bracket hstate hi hs hkind hlt
  · obtain ⟨i, s, hi, hs, hkind⟩ := currentKind?_eq_some (hkind.trans (by rw [hclose.2]))
    obtain rfl := Except.ok.inj h
    exact .bracket hstate hi hs hkind hlt
  · exact turn_skipSubsetMarkup hlt hstate h
  · exact turn_endHead hlt hstate h
  · obtain rfl := Except.ok.inj h
    exact turn_advance hlt fun hc => absurd hc hcontent

theorem turn_stepTo {o : Opening} (hlt : σ.pos < bytes.length) (hstate : σ.state.body? = some o)
    (h : σ.stepTo bytes o = .ok σ') : Turn bytes σ σ' := by
  obtain ⟨found, hfound, h⟩ := bind_eq_ok h
  split at h
  next htrue =>
    obtain ⟨-, hle⟩ := lookahead_eq_true (hfound.trans (by rw [htrue]))
    exact turn_endConstruct o.length_close_pos hle (.inl (by rw [hstate]; rfl)) h
  next =>
    obtain rfl := Except.ok.inj h
    refine turn_advance hlt fun hc => ?_
    rw [hc] at hstate
    cases hstate

theorem turn_beginMarkup (hstate : σ.state = .content) (hb : bytes[σ.pos]? = some '<'.toUInt8)
    (h : σ.beginMarkup bytes = .ok σ') : Turn bytes σ σ' := by
  obtain ⟨rest, hrest, h⟩ := bind_eq_ok h
  obtain ⟨hle, rfl⟩ := bytesFrom?_eq_some.mp (require_eq_ok.mp hrest)
  obtain ⟨hlt, hget⟩ := List.getElem?_eq_some_iff.mp hb
  have hbegins : asciiBytes (openingOf (bytes.drop (σ.pos + 1))).mark <+: bytes.drop σ.pos := by
    rw [List.drop_eq_getElem_cons hlt, hget]
    exact mark_prefix_openingOf
  have hlen := add_length_le_of_prefix_drop hbegins (by omega)
  rw [length_asciiBytes] at hlen
  dsimp only at h
  split_ifs at h with hclose
  · obtain rfl := Except.ok.inj h
    rw [hclose] at hlen ⊢
    exact .beginCloseTag hstate hlen
  · obtain rfl := Except.ok.inj h
    exact .begin hclose hstate hlen

theorem fail_ne_ok {α : Type} {offset : Nat} {cause : ScanError.Cause} {a : α} :
    σ.fail bytes offset cause ≠ .ok a := by
  intro h
  obtain ⟨lines, -, h⟩ := bind_eq_ok h
  cases h

theorem turn_endCloseTag (hlt : σ.pos < bytes.length) (hstate : σ.state = .closeTag)
    (h : σ.endCloseTag bytes = .ok σ') : Turn bytes σ σ' := by
  unfold endCloseTag at h
  dsimp only at h
  split at h
  next => exact absurd h fail_ne_ok
  next i outer hpop =>
    obtain ⟨s, hs, rfl⟩ := modifySpan_eq_ok h
    exact .endCloseTag hstate hpop hs hlt

theorem turn_step {b : UInt8} (hb : bytes[σ.pos]? = some b) (h : σ.step bytes b = .ok σ') :
    Turn bytes σ σ' := by
  obtain ⟨hlt, -⟩ := List.getElem?_eq_some_iff.mp hb
  have hquoted : ∀ {q : UInt8}, σ.state.inHead →
      (if b = q then σ.shift .head else σ.advance 1) = σ' → Turn bytes σ σ' := by
    intro q hstate h
    split at h
    · exact h ▸ .quote hstate rfl hlt
    · refine h ▸ turn_advance hlt fun hc => ?_
      rw [hc] at hstate
      cases hstate
  unfold step at h
  split at h
  next hstate =>
    split_ifs at h with hlt'
    · exact turn_beginMarkup hstate (hlt' ▸ hb) h
    · obtain rfl := Except.ok.inj h
      refine turn_advance hlt fun _ hget => hlt' ?_
      exact Option.some.inj (hb.symm.trans hget)
  next hstate => exact turn_stepHead hlt hstate h
  next hstate =>
    split_ifs at h
    · exact turn_endCloseTag hlt hstate h
    · obtain rfl := Except.ok.inj h
      exact turn_advance hlt fun hc => absurd (hstate.symm.trans hc) (by decide)
  next hstate => exact hquoted (by rw [hstate]; rfl) (Except.ok.inj h)
  next hstate => exact hquoted (by rw [hstate]; rfl) (Except.ok.inj h)
  next hstate => exact turn_stepTo hlt (by rw [hstate]; rfl) h
  next hstate => exact turn_stepTo hlt (by rw [hstate]; rfl) h
  next hstate => exact turn_stepTo hlt (by rw [hstate]; rfl) h

/-- A line terminator holds no `<`. -/
theorem ne_lt_of_lineBehind {pos p : Nat} {b : UInt8} (hb : bytes[pos]? = some b) (hline : endsLine b)
    (hp : pos ≤ p) (hp' : p < lineBehind bytes pos b) : bytes[p]? ≠ some '<'.toUInt8 := by
  unfold lineBehind at hp'
  intro hget
  by_cases hne : p = pos
  · subst hne
    obtain rfl := Option.some.inj (hb.symm.trans hget)
    exact absurd hline (by decide)
  · split at hp'
    next hpair =>
      obtain rfl : p = pos + 1 := by omega
      exact absurd (hpair.2.symm.trans hget) (by decide)
    next => omega

/-- **What a turn can do.** -/
theorem turn_of_react (h : σ.react bytes = .ok σ') : Turn bytes σ σ' := by
  obtain ⟨b, hb, h⟩ := bind_eq_ok h
  have hb := require_eq_ok.mp hb
  obtain ⟨hlt, -⟩ := List.getElem?_eq_some_iff.mp hb
  split at h
  next hline =>
    obtain rfl := Except.ok.inj h
    exact .pass (lt_lineBehind _ _ _) (lineBehind_le hlt b) fun _ p => ne_lt_of_lineBehind hb hline
  next => exact turn_step hb h

/-- What `skipInert` goes past is not what the state reacts to. -/
theorem skipInert_eq_ok {more : Bool} (h : σ.skipInert bytes = .ok (σ', more)) :
    σ.pos ≤ bytes.length ∧ ∃ pos, σ.pos ≤ pos ∧ pos ≤ bytes.length ∧ σ' = { σ with pos } ∧
      ∀ stop, σ.state.stop? = some stop → ∀ p, σ.pos ≤ p → p < pos → bytes[p]? ≠ some stop := by
  obtain ⟨rest, hrest, h⟩ := bind_eq_ok h
  obtain ⟨hle, rfl⟩ := bytesFrom?_eq_some.mp (require_eq_ok.mp hrest)
  refine ⟨hle, ?_⟩
  have hskipped : ∀ {stop : UInt8} {n : Nat}, σ.state.stop? = some stop →
      (∀ b ∈ (bytes.drop σ.pos).take n, ¬ (b == stop || endsLine b)) →
      ∀ stop', σ.state.stop? = some stop' → ∀ p, σ.pos ≤ p → p < σ.pos + n →
        bytes[p]? ≠ some stop' := by
    intro stop n hstop hall stop' hstop' p hp hp' hget
    obtain rfl := Option.some.inj (hstop.symm.trans hstop')
    obtain ⟨k, rfl⟩ := Nat.exists_eq_add_of_le hp
    refine hall stop (List.mem_of_getElem? (i := k) ?_) (by simp)
    rw [List.getElem?_take_of_lt (by omega), List.getElem?_drop, hget]
  split at h
  next hnone =>
    obtain ⟨rfl, -⟩ := Prod.mk.inj (Except.ok.inj h)
    refine ⟨σ.pos, Nat.le_refl _, hle, rfl, ?_⟩
    intro stop hstop
    rw [hnone] at hstop
    cases hstop
  next stop hstop =>
    split at h
    next skip hskip =>
      obtain ⟨rfl, -⟩ := Prod.mk.inj (Except.ok.inj h)
      obtain ⟨hlt, -, hfirst⟩ := List.findIdx?_eq_some_iff_getElem.mp hskip
      rw [List.length_drop] at hlt
      refine ⟨σ.pos + skip, by omega, by omega, rfl, hskipped hstop ?_⟩
      intro b hb
      obtain ⟨k, hk, rfl⟩ := List.getElem_of_mem hb
      rw [List.length_take] at hk
      rw [List.getElem_take]
      exact hfirst k (by omega)
    next hnone =>
      obtain ⟨rfl, -⟩ := Prod.mk.inj (Except.ok.inj h)
      have hend : bytes.length = σ.pos + (bytes.length - σ.pos) := by omega
      refine ⟨bytes.length, hle, Nat.le_refl _, rfl, ?_⟩
      rw [hend]
      refine hskipped hstop ?_
      intro b hb
      have := List.findIdx?_eq_none_iff.mp hnone b (List.mem_of_mem_take hb)
      simpa using this

/-! ## Runs -/

/-- Reads the rest of the bytes. -/
def run (bytes : List UInt8) (σ : Scanner) : Except Fault Scan :=
  match hskip : σ.skipInert bytes with
  | .error e => .error e
  | .ok (σ₁, false) => σ₁.finish bytes
  | .ok (σ₁, true) =>
    match hreact : σ₁.react bytes with
    | .error e => .error e
    | .ok σ₂ =>
      have : bytes.length - σ₂.pos < bytes.length - σ.pos := by
        obtain ⟨-, pos, hle, -, rfl, -⟩ := skipInert_eq_ok hskip
        have := (turn_of_react hreact).pos_lt
        dsimp only at this
        omega
      σ₂.run bytes
termination_by bytes.length - σ.pos

theorem run_eq (bytes : List UInt8) (σ : Scanner) : σ.run bytes = (do
    let (σ₁, more) ← σ.skipInert bytes
    if more then
      let σ₂ ← σ₁.react bytes
      σ₂.run bytes
    else σ₁.finish bytes) := by
  rw [run]
  split
  next e hskip =>
    rw [hskip]
    rfl
  next σ₁ hskip =>
    rw [hskip]
    rfl
  next σ₁ hskip =>
    split
    next e hreact =>
      rw [hskip]
      exact (congrArg (· >>= fun σ₂ => σ₂.run bytes) hreact).symm
    next σ₂ hreact =>
      show σ₂.run bytes = _
      rw [hskip]
      exact (congrArg (· >>= fun σ₂ => σ₂.run bytes) hreact).symm

theorem run_of_turn {σ₁ σ₂ : Scanner} (hskip : σ.skipInert bytes = .ok (σ₁, true))
    (hreact : σ₁.react bytes = .ok σ₂) : σ.run bytes = σ₂.run bytes := by
  rw [run_eq, hskip]
  show σ₁.react bytes >>= (fun σ₂ => σ₂.run bytes) = _
  rw [hreact]
  rfl

/-- The states in which a turn begins. -/
inductive Reachable (bytes : List UInt8) : Scanner → Prop where
  | empty : Reachable bytes empty
  | turn {σ σ₁ σ₂ : Scanner} (h : Reachable bytes σ) (hskip : σ.skipInert bytes = .ok (σ₁, true))
      (hreact : σ₁.react bytes = .ok σ₂) : Reachable bytes σ₂

end Scanner

/-- Finds the spans and the lines of the text with these bytes. -/
def scanBytes (bytes : List UInt8) : Except Fault Scan := Scanner.empty.run bytes

/-- The scan goes on from each state in which a turn begins. -/
theorem Scanner.Reachable.run_eq {bytes : List UInt8} {σ : Scanner} (h : Reachable bytes σ) :
    σ.run bytes = scanBytes bytes := by
  induction h with
  | empty => rfl
  | turn _ hskip hreact ih => rw [← ih, run_of_turn hskip hreact]

end XmlLocate
