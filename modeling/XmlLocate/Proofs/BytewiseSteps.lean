import XmlLocate.Proofs.AsciiBytes
import XmlLocate.Proofs.ScannerStates
import XmlLocate.Proofs.SkippingScan
import XmlLocate.Proofs.TableRepair

/-!
# Steps, byte by byte

`m.scanner state` is the scanner that has read what the automaton `m` has; `m.At source t` says that `t` is
what is left of the text. From there a turn leads to where a step of the automaton leads (`Follows`), as
the characters that either reacts to are ASCII.
-/

namespace XmlLocate

/-- The mode of the automaton in a state. -/
def ScanState.mode : ScanState → Mode
  | content => .content
  | head => .head
  | closeTag => .closeTag
  | singleQuoted => .quoted '\''
  | doubleQuoted => .quoted '"'
  | comment => .comment
  | cdata => .cdata
  | instruction => .instruction

theorem ScanState.stop?_mode (s : ScanState) : s.stop? = s.mode.stop?.map Char.toUInt8 := by
  cases s <;> rfl

namespace Machine

/-- The scanner that has read what the automaton has. -/
def scanner (m : Machine) (state : ScanState) : Scanner :=
  ⟨m.offset, state, m.textStart, m.markupStart, m.current, m.depth, .of m.opened, m.spans,
    m.lines.starts⟩

/-- The automaton has read the text up to `t`. -/
def At (m : Machine) (source t : List Char) : Prop :=
  ∃ u, source = u ++ t ∧ ¬ SplitsPair u t ∧ m.lines = .ofText u

variable {source t v : List Char} {m m' : Machine} {state : ScanState}

theorem at_empty (source : List Char) : empty.At source source :=
  ⟨[], rfl, not_splitsPair_nil_left source, rfl⟩

theorem At.of_lines (h : m.At source t) (hlines : m'.lines = m.lines) : m'.At source t := by
  rwa [At, hlines]

theorem At.pass (h : m.At source (v ++ t)) (hv : ¬ SplitsPair v t) : (m.pass v).At source t := by
  obtain ⟨u, rfl, hu, hlines⟩ := h
  by_cases hnil : v = []
  · subst hnil
    exact ⟨u, rfl, hu, by rw [pass_nil, hlines]⟩
  obtain ⟨c, v, rfl⟩ := List.exists_cons_of_ne_nil hnil
  refine ⟨u ++ c :: v, by simp, ?_, ?_⟩
  · rintro ⟨hr, hn⟩
    refine hv ⟨?_, hn⟩
    rw [List.getLast?_append] at hr
    cases hlast : (c :: v).getLast? with
    | none => simp at hlast
    | some d => rwa [hlast] at hr
  · show m.lines.extend (c :: v) = _
    rw [hlines]
    exact LineTable.extend_extend (fun hs => hu ⟨hs.1, by simpa using hs.2⟩) _

theorem At.offset_eq {u : List Char} (hlines : m.lines = .ofText u) : m.offset = byteLength u := by
  rw [offset, hlines, LineTable.length_ofText]

theorem At.drop_eq (h : m.At source t) : (textBytes source).drop m.offset = textBytes t := by
  obtain ⟨u, rfl, -, hlines⟩ := h
  rw [At.offset_eq hlines, drop_textBytes]

theorem At.offset_add (h : m.At source t) : m.offset + byteLength t = byteLength source := by
  obtain ⟨u, rfl, -, hlines⟩ := h
  rw [At.offset_eq hlines, byteLength_append]

theorem At.bytesFrom? (h : m.At source t) : bytesFrom? (textBytes source) m.offset = some (textBytes t) := by
  refine bytesFrom?_eq_some.mpr ⟨?_, h.drop_eq⟩
  have := h.offset_add
  rw [length_textBytes]
  omega

theorem At.getElem? (h : m.At source t) (k : Nat) :
    (textBytes source)[m.offset + k]? = (textBytes t)[k]? := by
  obtain ⟨u, rfl, -, hlines⟩ := h
  rw [At.offset_eq hlines, getElem?_textBytes]

/-- Characters that end no line are passed byte by byte. -/
theorem scanner_pass (hv : ∀ c ∈ v, ¬ IsTerminator c) (m : Machine) (state : ScanState) :
    (m.pass v).scanner state = (m.scanner state).advance (byteLength v) := by
  have hstarts : (m.pass v).lines.starts = m.lines.starts := by
    show m.lines.starts ++ lineBreaks m.lines.length v = m.lines.starts
    rw [lineBreaks_of_forall hv, Array.appendList_nil]
  rw [scanner, hstarts]
  rfl

theorem lookahead_scanner {p : List Char} (hp : isAsciiLine p) (h : m.At source t) :
    (m.scanner state).lookahead (textBytes source) p = .ok (decide (p <+: t)) := by
  have hbegins : (asciiBytes p).isPrefixOf (textBytes t) = decide (p <+: t) := by
    rw [Bool.eq_iff_iff, List.isPrefixOf_iff_prefix, decide_eq_true_iff,
      asciiBytes_prefix_iff (isAscii_of_isAsciiLine hp)]
  unfold Scanner.lookahead
  rw [show (m.scanner state).pos = m.offset from rfl, h.bytesFrom?, ← hbegins]
  rfl

/-! ## Jumps -/

theorem testsFor_isInert {stop : Char} (hstop : IsAscii stop) :
    TestsFor (fun b => b == stop.toUInt8 || endsLine b) fun c => !isInert stop c := by
  refine .of_ascii ?_ ?_ ?_
  · intro c hc
    by_cases hcs : c = stop
    · rwa [hcs]
    · refine isAscii_of_isTerminator ?_
      simp only [isInert, bne, Bool.not_and, Bool.not_not, Bool.or_eq_true, beq_iff_eq, hcs, false_or]
        at hc
      exact hc
  · intro c hc
    rw [endsLine_toUInt8 hc, Bool.eq_iff_iff, Bool.or_eq_true, beq_iff_eq, toUInt8_inj hstop hc,
      decide_eq_true_iff, IsTerminator]
    simp [isInert, or_assoc]
  · intro b hb
    simp [ne_toUInt8_of_le hb hstop, endsLine_of_le hb]

theorem isAscii_of_stop? {s : ScanState} {stop : Char} (h : s.mode.stop? = some stop) :
    IsAscii stop := by
  cases s <;> cases h <;> decide

/-- Both go to the same place. -/
theorem skipInert_scanner (h : m.At source t) (hmode : m.mode = state.mode) :
    (m.skipInert t).1.At source (m.skipInert t).2 ∧ (m.skipInert t).1.mode = state.mode ∧
      (m.scanner state).skipInert (textBytes source) =
        .ok ((m.skipInert t).1.scanner state, !(m.skipInert t).2.isEmpty) := by
  unfold skipInert Scanner.skipInert
  rw [show (m.scanner state).pos = m.offset from rfl, h.bytesFrom?,
    show (m.scanner state).state = state from rfl, ScanState.stop?_mode, hmode]
  cases hstop : state.mode.stop? with
  | none =>
    refine ⟨h, hmode, ?_⟩
    show Except.ok (m.scanner state, !(textBytes t).isEmpty) = _
    rw [isEmpty_textBytes]
  | some stop =>
    dsimp only
    have hfind := findIdx?_textBytes (testsFor_isInert (isAscii_of_stop? hstop)) t
    simp only [Bool.not_not] at hfind
    have hbefore : ∀ c ∈ t.takeWhile (isInert stop), ¬ IsTerminator c := by
      intro c hc hterm
      have := List.mem_takeWhile_imp hc
      rcases hterm with rfl | rfl <;> simp [isInert] at this
    have hat : (m.pass (t.takeWhile (isInert stop))).At source (t.dropWhile (isInert stop)) := by
      refine At.pass (by rwa [List.takeWhile_append_dropWhile]) fun hs => ?_
      exact hbefore _ (List.mem_of_getLast? hs.1) (.inr rfl)
    refine ⟨hat, hmode, ?_⟩
    rw [scanner_pass hbefore]
    rw [require_some_bind, Option.map_some]
    dsimp only
    rw [hfind]
    by_cases hnil : t.dropWhile (isInert stop) = []
    · have hend := hat.offset_add
      rw [hnil, byteLength_nil, Nat.add_zero] at hend
      rw [if_pos hnil, hnil]
      show Except.ok ({ m.scanner state with pos := (textBytes source).length }, false) = _
      rw [length_textBytes, ← hend]
      rfl
    · rw [if_neg hnil]
      have hempty : (t.dropWhile (isInert stop)).isEmpty = false := by simpa using hnil
      rw [hempty]
      rfl

/-! ## Steps -/

/-- The scanner gets to where the automaton gets, with the rest of the text. -/
def Follows (source : List Char) (r : Except Fault Scanner)
    (x : Except ScanError (Machine × List Char)) : Prop :=
  match x with
  | .error e => r = .error (.failure e)
  | .ok (m', rest) =>
    m'.At source rest ∧ ∃ state', m'.mode = state'.mode ∧ r = .ok (m'.scanner state')

theorem recorded_scanner (h : Scanner.Consistent (textBytes source) (m.scanner state)) :
    Recorded m.spans m.opened m.current := by
  obtain ⟨opened, hopened, hrecorded⟩ := h.recorded
  have hsame : m.opened = opened := by
    have := List.append_cancel_right (congrArg OpenStack.entries hopened)
    exact List.map_injective_iff.mpr (Option.some_injective _) this
  rwa [hsame]

theorem exists_current (h : Recorded m.spans m.opened m.current) {i : Nat} (hi : m.current = some i) :
    ∃ s, m.spans[i]? = some s := by
  have := h.current_last i hi
  exact ⟨_, Array.getElem?_eq_getElem (by omega)⟩

theorem currentKind?_scanner (h : Recorded m.spans m.opened m.current) :
    (m.scanner state).currentKind? = .ok m.currentKind? := by
  unfold Scanner.currentKind? currentKind?
  cases hcurrent : m.current with
  | none =>
    rw [show (m.scanner state).current = none from hcurrent]
    rfl
  | some i =>
    obtain ⟨s, hs⟩ := exists_current h hcurrent
    rw [show (m.scanner state).current = some i from hcurrent]
    show (Fault.require m.spans[i]? >>= fun s => _) = _
    rw [hs, Option.bind_some, hs]
    rfl

/-- A character that the automaton passes. -/
theorem follows_pass {c : Char} (hc : IsAscii c) (hterm : ¬ IsTerminator c)
    (hmode : m.mode = state.mode) (h : m.At source (c :: t)) :
    Follows source (.ok ((m.scanner state).advance 1)) (.ok (m.pass [c], t)) := by
  refine ⟨At.pass h (not_splitsPair_of_not_isTerminator hterm [] t).2, state, hmode, ?_⟩
  rw [scanner_pass (by simpa using hterm), byteLength_cons, utf8Size_of_isAscii hc]
  rfl

theorem toContent_pass {d : List Char} (hd : isAsciiLine d) (m : Machine) :
    (m.pass d).toContent.scanner .content =
      { m.scanner .content with
        pos := m.offset + d.length, textStart := m.offset + d.length, current := none } := by
  have hpass := scanner_pass (not_isTerminator_of_isAsciiLine hd) m .content
  rw [byteLength_of_isAscii (isAscii_of_isAsciiLine hd)] at hpass
  have hoffset : (m.pass d).offset = m.offset + d.length := congrArg Scanner.pos hpass
  calc (m.pass d).toContent.scanner .content
      = { (m.pass d).scanner .content with textStart := (m.pass d).offset, current := none } := rfl
    _ = _ := by rw [hpass, hoffset]; rfl

/-- More is recorded of a span behind a delimiter. -/
theorem toContent_modify {i : Nat} {s : Span} (hs : m.spans[i]? = some s) {d : List Char}
    (hd : isAsciiLine d) (f : Nat → Span → Span) :
    ((m.pass d).modify i (f (m.pass d).offset)).toContent.scanner .content =
      { m.scanner .content with
        pos := m.offset + d.length, textStart := m.offset + d.length, current := none
        spans := m.spans.setIfInBounds i (f (m.offset + d.length) s) } := by
  have hcontent := toContent_pass hd m
  have hoffset : (m.pass d).offset = m.offset + d.length := congrArg Scanner.pos hcontent
  calc ((m.pass d).modify i (f (m.pass d).offset)).toContent.scanner .content
      = { (m.pass d).toContent.scanner .content with
          spans := m.spans.modify i (f (m.pass d).offset) } := rfl
    _ = _ := by rw [hcontent, hoffset, modify_eq_setIfInBounds hs]

theorem endSpan_scanner (hrecorded : Recorded m.spans m.opened m.current) {d : List Char}
    (hd : isAsciiLine d) (f : Nat → Span → Span) :
    (m.scanner state).endSpan d.length f =
      .ok ((match m.current with
        | some i => ((m.pass d).modify i (f (m.pass d).offset)).toContent
        | none => (m.pass d).toContent).scanner .content) := by
  unfold Scanner.endSpan
  rw [show (m.scanner state).current = m.current from rfl]
  cases hcurrent : m.current with
  | none =>
    dsimp only
    rw [toContent_pass hd]
    rfl
  | some i =>
    obtain ⟨s, hs⟩ := exists_current hrecorded hcurrent
    dsimp only
    rw [toContent_modify hs hd]
    show (Fault.require m.spans[i]? >>= fun s => _) = _
    rw [hs]
    rfl

/-- The automaton is behind a delimiter, without a terminator at its end. -/
theorem At.drop {d : List Char} (h : m.At source t) (hd : isAsciiLine d) (hp : d <+: t)
    (hlines : m'.lines = (m.pass d).lines) : m'.At source (t.drop d.length) := by
  obtain ⟨rest, rfl⟩ := hp
  rw [List.drop_left]
  refine (At.pass h fun hs => ?_).of_lines hlines
  exact not_isTerminator_of_isAsciiLine hd _ (List.mem_of_getLast? hs.1) (.inr rfl)

theorem lines_endSpan (m : Machine) (d : List Char) : (m.endSpan d).lines = (m.pass d).lines := by
  unfold endSpan
  dsimp only
  split <;> rfl

theorem mode_endSpan (m : Machine) (d : List Char) : (m.endSpan d).mode = .content := by
  unfold endSpan
  dsimp only
  split <;> rfl

theorem endConstruct_scanner (hrecorded : Recorded m.spans m.opened m.current) (o : Opening) :
    (m.scanner state).endConstruct o.close.length = .ok ((m.endSpan o.close).scanner .content) :=
  endSpan_scanner hrecorded (isAsciiLine_close o) _

theorem follows_stepTo {o : Opening} {c : Char} (hc : IsAscii c) (hterm : ¬ IsTerminator c)
    (hmode : m.mode = state.mode) (h : m.At source (c :: t))
    (hrecorded : Recorded m.spans m.opened m.current) :
    Follows source ((m.scanner state).stepTo (textBytes source) o) (.ok (m.stepTo o c t)) := by
  unfold Scanner.stepTo stepTo
  rw [lookahead_scanner (isAsciiLine_close o) h]
  by_cases hd : o.close <+: c :: t
  · rw [if_pos hd]
    refine ⟨At.drop h (isAsciiLine_close o) hd (lines_endSpan m o.close), .content,
      mode_endSpan m o.close, ?_⟩
    rw [← endConstruct_scanner hrecorded o]
    show (if decide _ = true then _ else _) = _
    rw [if_pos (decide_eq_true hd)]
  · rw [if_neg hd]
    show Follows source (if decide _ = true then _ else _) _
    rw [if_neg (by simpa using hd)]
    exact follows_pass hc hterm hmode h

/-! ## Line terminators -/

/-- What ends one line is passed in one go. -/
theorem scanner_pass_line (hv : lineBreaks m.offset v = [m.offset + byteLength v])
    (state : ScanState) :
    (m.pass v).scanner state =
      { m.scanner state with
        pos := m.offset + byteLength v
        lineStarts := m.lines.starts.push (m.offset + byteLength v) } := by
  have hstarts : (m.pass v).lines.starts = m.lines.starts.push (m.offset + byteLength v) := by
    show m.lines.starts ++ lineBreaks m.offset v = _
    rw [hv]
    apply Array.ext'
    simp
  rw [scanner, hstarts]
  rfl

theorem follows_terminator {c : Char} (hc : IsTerminator c) (hmode : m.mode = state.mode)
    (h : m.At source (c :: t)) :
    Follows source
      (.ok { m.scanner state with
        pos := lineBehind (textBytes source) m.offset c.toUInt8
        lineStarts := m.lines.starts.push (lineBehind (textBytes source) m.offset c.toUInt8) })
      (m.step (c :: t)) := by
  have hsize := utf8Size_of_isAscii (isAscii_of_isTerminator hc)
  have hbehind : lineBehind (textBytes source) m.offset c.toUInt8 =
      if SplitsPair [c] t then m.offset + 2 else m.offset + 1 := by
    obtain ⟨u, rfl, -, hlines⟩ := h
    rw [At.offset_eq hlines, lineBehind_textBytes hc, byteLength_append, byteLength_cons, hsize]
    rfl
  by_cases hpair : SplitsPair [c] t
  · obtain rfl : c = '\r' := by simpa using hpair.1
    obtain ⟨t, rfl⟩ : ∃ u, t = '\n' :: u := List.head?_eq_some_iff.mp hpair.2
    rw [step_pair, hbehind, if_pos hpair]
    refine ⟨At.pass h (not_splitsPair_of_concat (by decide) ['\r'] t), state, hmode, ?_⟩
    rw [scanner_pass_line (lineBreaks_pair _ _)]
    rfl
  · rw [step_eq hpair, if_pos hc, hbehind, if_neg hpair]
    refine ⟨At.pass h hpair, state, hmode, ?_⟩
    have hbreaks : lineBreaks m.offset [c] = [m.offset + byteLength [c]] := by
      rw [lineBreaks_terminator hc (fun hs => by simpa using hs.2), byteLength_cons, hsize]
      rfl
    rw [scanner_pass_line hbreaks, byteLength_cons, hsize]
    rfl

/-! ## Quotes -/

/-- A character that leads to another state is passed. -/
theorem follows_shift {c : Char} (hc : IsAscii c) (hterm : ¬ IsTerminator c) (state' : ScanState)
    (h : m.At source (c :: t)) :
    Follows source (.ok ((m.scanner state).shift state'))
      (.ok ({ m with mode := state'.mode }.pass [c], t)) := by
  refine ⟨At.pass h (not_splitsPair_of_not_isTerminator hterm [] t).2, state', rfl, ?_⟩
  rw [scanner_pass (by simpa using hterm), byteLength_cons, utf8Size_of_isAscii hc]
  rfl

theorem follows_quoted {c q : Char} (hq : IsAscii q) (hc : IsAscii c) (hterm : ¬ IsTerminator c)
    (hmode : m.mode = .quoted q) (hstate : m.mode = state.mode) (h : m.At source (c :: t)) :
    Follows source
      (.ok (if c.toUInt8 = q.toUInt8 then (m.scanner state).shift .head
        else (m.scanner state).advance 1))
      (m.stepChar c t) := by
  rw [stepChar_quoted hmode, if_congr (toUInt8_inj hq hc) rfl rfl]
  split
  · exact follows_shift hc hterm .head h
  · exact follows_pass hc hterm hstate h

/-! ## Beginnings -/

theorem openingOf_textBytes (w : List Char) :
    Scanner.openingOf (textBytes w) = Opening.ofText ('<' :: w) := by
  have hone : ∀ {c : Char}, IsAscii c →
      ((textBytes w).head? = some c.toUInt8 ↔ ['<', c].isPrefixOf ('<' :: w)) := by
    intro c hc
    rw [head?_textBytes_iff hc, ← singleton_prefix_iff_head?, List.isPrefixOf_iff_prefix,
      List.cons_prefix_cons, and_iff_right rfl]
  have hmany : ∀ {p : List Char}, isAsciiLine p →
      ((asciiBytes p).isPrefixOf (textBytes w) ↔ ('<' :: p).isPrefixOf ('<' :: w)) := by
    intro p hp
    rw [List.isPrefixOf_iff_prefix, List.isPrefixOf_iff_prefix,
      asciiBytes_prefix_iff (isAscii_of_isAsciiLine hp), List.cons_prefix_cons, and_iff_right rfl]
  exact if_congr (hone (by decide)) rfl <| if_congr (hone (by decide)) rfl <|
    if_congr (hmany (by decide)) rfl <| if_congr (hmany (by decide)) rfl <|
    if_congr (hone (by decide)) rfl rfl

theorem endText_scanner (m : Machine) (state : ScanState) :
    (m.scanner state).endText = m.flush.scanner state := by
  unfold Scanner.endText flush
  by_cases hlt : m.textStart < m.offset
  · exact (if_pos hlt).trans (by rw [if_pos hlt]; rfl)
  · exact (if_neg hlt).trans (by rw [if_neg hlt])

theorem mode_kindAndState (o : Opening) :
    (kindAndMode o).2 = (Scanner.kindAndState o).2.mode ∧
      (kindAndMode o).1 = (Scanner.kindAndState o).1 := by
  cases o <;> exact ⟨rfl, rfl⟩

theorem mode_enter (m : Machine) (o : Opening) : (m.enter o).mode = (kindAndMode o).2 := by
  unfold enter
  dsimp only
  split <;> rfl

theorem lines_enter (m : Machine) (o : Opening) : (m.enter o).lines = m.lines := by
  unfold enter
  dsimp only
  split <;> rfl

theorem follows_beginMarkup (hmode : m.mode = .content) (h : m.At source ('<' :: t)) :
    Follows source ((m.scanner state).beginMarkup (textBytes source)) (m.stepChar '<' t) := by
  have hbehind : m.offset + 1 = (m.pass ['<']).offset := rfl
  have hrest := (At.pass (v := ['<']) h (not_splitsPair_of_concat (by decide) [] t)).bytesFrom?
  simp only [stepChar, hmode, if_true]
  generalize ho : Opening.ofText ('<' :: t) = o
  have hmark : o.mark <+: '<' :: t := ho ▸ Opening.mark_prefix_ofText t
  have hflush : m.flush.offset = m.offset := congrArg LineTable.length (lines_flush m)
  refine ⟨At.drop h (isAsciiLine_mark o) hmark ?_, (Scanner.kindAndState o).2, ?_, ?_⟩
  · rw [openMarkup_eq ho]
    show (m.flush.enter o).lines.extend o.mark = m.lines.extend o.mark
    rw [lines_enter, lines_flush]
  · rw [openMarkup_eq ho]
    exact (mode_enter m.flush o).trans (mode_kindAndState o).1
  · unfold Scanner.beginMarkup
    rw [show (m.scanner state).pos + 1 = (m.pass ['<']).offset from hbehind, hrest]
    show (if Scanner.openingOf (textBytes t) = .closeTag then _ else _) = _
    rw [openingOf_textBytes, ho, openMarkup_eq ho,
      scanner_pass (not_isTerminator_of_isAsciiLine (isAsciiLine_mark o)),
      byteLength_of_isAscii (isAscii_of_isAsciiLine (isAsciiLine_mark o)), endText_scanner]
    by_cases hclose : o = .closeTag
    · subst hclose
      rw [if_pos rfl]
      show Except.ok { m.flush.scanner state with
          markupStart := m.offset, state := .closeTag, pos := m.offset + 2 } =
        .ok { m.flush.scanner state with
          markupStart := m.flush.offset, state := .closeTag, pos := m.flush.offset + 2 }
      rw [hflush]
    · rw [if_neg hclose, enter_of_ne hclose, hflush, (mode_kindAndState o).2]
      show _ = Except.ok (Scanner.pushSpan { m.flush.scanner state with
        markupStart := m.offset, state := (Scanner.kindAndState o).2
        pos := m.flush.offset + o.mark.length, current := some m.flush.spans.size, depth := 0 } _ _ _)
      rw [hflush]
      rfl

/-! ## Close tags -/

/-- A scan that fails names the place in the lines so far. -/
theorem fail_scanner {α : Type} (h : m.At source t) {σ : Scanner} (hlines : σ.lineStarts = m.lines.starts)
    {offset : Nat} (hoffset : offset ≤ m.offset) (cause : ScanError.Cause) :
    (σ.fail (textBytes source) offset cause : Except Fault α) =
      .error (.failure (.ofOffset m.lines offset cause)) := by
  have hlength : m.lines.length ≤ (textBytes source).length := by
    rw [length_textBytes, ← h.offset_add]
    exact Nat.le_add_right _ _
  obtain ⟨l, htable, hstarts, hlast⟩ := LineTable.exists_ofStarts? m.lines hlength
  have hoffset' : offset ≤ l.length := by
    rw [hlast]
    exact hoffset.trans hlength
  unfold Scanner.fail Scanner.table
  rw [hlines, htable, ← LineTable.ofOffset_eq_of_starts hstarts hoffset' hoffset]
  rfl

theorem follows_endCloseTag (hstate : state = .closeTag)
    (hconsistent : Scanner.Consistent (textBytes source) (m.scanner state)) (h : m.At source ('>' :: t)) :
    Follows source ((m.scanner state).endCloseTag (textBytes source)) ((·, t) <$> m.endCloseTag) := by
  have hcurrent : m.current = none := hconsistent.current_eq_none (.inr hstate)
  unfold Scanner.endCloseTag endCloseTag
  dsimp only
  rw [show ((m.scanner state).advance 1).opened = .of m.opened from rfl]
  cases hopened : m.opened with
  | nil =>
    exact fail_scanner h rfl hconsistent.markupStart_le .unmatchedCloseTag
  | cons i outer =>
    have hmem : i ∈ m.opened := by
      rw [hopened]
      exact List.mem_cons_self
    obtain ⟨s, hs, -⟩ := ((recorded_scanner hconsistent).opened_iff i).mp hmem
    have hended := toContent_modify (d := ['>']) hs (by decide) fun stop s =>
      { s with stop := some stop }
    rw [OpenStack.pop_of_cons]
    refine ⟨At.drop (d := ['>']) h (by decide) (List.prefix_append ['>'] t) rfl, .content, rfl, ?_⟩
    show (Fault.require m.spans[i]? >>= fun s => _) =
      Except.ok { ((m.pass ['>']).modify i fun s =>
        { s with stop := some (m.pass ['>']).offset }).toContent.scanner .content with
          opened := .of outer }
    rw [hs, hended, ← hcurrent]
    rfl

end Machine

end XmlLocate
