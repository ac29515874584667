import XmlLocate.Proofs.BytewiseSteps

/-!
# Heads, byte by byte

In a start tag or a declaration a turn of the scanner is a step of the automaton (`follows_stepHead`). A
comment or a processing instruction between brackets is passed by both in one go: the scanner looks for
its end and records the lines on the way to it (`skipBlock_scanner`).
-/

namespace XmlLocate

namespace Machine

variable {source t v : List Char} {m : Machine} {state : ScanState}

/-! ## Blocks -/

theorem skipTo_scanner (h : m.At source (v ++ t)) (hv : ¬ SplitsPair v t) (state : ScanState) :
    (m.scanner state).skipTo (textBytes source) (m.offset + byteLength v) =
      .ok ((m.pass v).scanner state) := by
  obtain ⟨u, rfl, -, hlines⟩ := h
  have hoffset := At.offset_eq hlines
  obtain ⟨p, hp⟩ := exists_passLines hv u m.lines.starts
  have hle := (passLines_le hp).1
  have htarget : m.offset + byteLength v = byteLength (u ++ v) := by rw [hoffset, byteLength_append]
  unfold Scanner.skipTo
  rw [htarget, show (m.scanner state).pos = byteLength u from hoffset, ← List.append_assoc]
  show (passLines _ _ _ m.lines.starts >>= fun p => _) = _
  rw [hp]
  show Except.ok { m.scanner state with
    pos := max p (byteLength (u ++ v)), lineStarts := m.lines.starts ++ lineBreaks (byteLength u) v } = _
  rw [Nat.max_eq_right hle, ← htarget, ← hoffset]
  rfl

theorem exists_cons_close (o : Opening) : ∃ first rest, o.close = first :: rest := by
  cases o <;> exact ⟨_, _, rfl⟩

/-- What is opened is passed in one go. -/
theorem skipBlock_scanner {o : Opening} (hp : o.mark <+: t) (h : m.At source t) (state : ScanState) :
    (m.skipBlock o t).1.At source (m.skipBlock o t).2 ∧
      (m.scanner state).skipBlock (textBytes source) o = .ok ((m.skipBlock o t).1.scanner state) := by
  obtain ⟨body, rfl⟩ := hp
  have hmark : byteLength o.mark = o.mark.length :=
    byteLength_of_isAscii (isAscii_of_isAsciiLine (isAsciiLine_mark o))
  have hclose : byteLength o.close = o.close.length :=
    byteLength_of_isAscii (isAscii_of_isAsciiLine (isAsciiLine_close o))
  have hbody : (m.pass o.mark).At source body := At.pass h (not_splitsPair_mark o [] body)
  have hrest : bytesFrom? (textBytes source) (m.offset + o.mark.length) = some (textBytes body) := by
    rw [← hmark]
    exact hbody.bytesFrom?
  have hfind : findBytes? (asciiBytes o.close) (textBytes body) =
      (splitAround o.close body).map fun p => byteLength p.1 := by
    obtain ⟨first, rest, hcons⟩ := exists_cons_close o
    rw [hcons]
    refine findBytes?_textBytes ?_ body
    intro c hc
    exact isAscii_of_isAsciiLine (isAsciiLine_close o) c (hcons ▸ hc)
  unfold skipBlock Scanner.skipBlock
  dsimp only
  rw [show (m.scanner state).pos = m.offset from rfl, hrest, List.drop_left]
  rw [require_some_bind, hfind]
  cases hsplit : splitAround o.close body with
  | none =>
    have hend : ¬ SplitsPair (o.mark ++ body) [] := fun hs => by simpa using hs.2
    have h : m.At source (o.mark ++ body ++ []) := by rwa [List.append_nil]
    refine ⟨h.pass hend, ?_⟩
    have htarget : (textBytes source).length = m.offset + byteLength (o.mark ++ body) := by
      rw [length_textBytes, ← h.offset_add, List.append_nil]
    dsimp only [Option.map_none]
    rw [htarget]
    exact skipTo_scanner h hend state
  | some p =>
    obtain ⟨a, b⟩ := p
    have hend := not_splitsPair_close o (o.mark ++ a) b
    have h : m.At source (o.mark ++ a ++ o.close ++ b) := by
      rw [List.append_assoc, List.append_assoc, ← List.append_assoc a, splitAround_eq hsplit]
      exact h
    refine ⟨h.pass hend, ?_⟩
    have htarget : m.offset + o.mark.length + byteLength a + o.close.length =
        m.offset + byteLength (o.mark ++ a ++ o.close) := by
      rw [byteLength_append, byteLength_append, hmark, hclose]
      omega
    dsimp only [Option.map_some]
    rw [htarget]
    exact skipTo_scanner h hend state

/-! ## Ends -/

theorem endEmptyTag_scanner (hrecorded : Recorded m.spans m.opened m.current) :
    (m.scanner state).endEmptyTag = .ok (m.endEmptyTag.scanner .content) :=
  endSpan_scanner (d := ['/', '>']) hrecorded (by decide) _

theorem endHead_scanner (hrecorded : Recorded m.spans m.opened m.current) :
    (m.scanner state).endHead = .ok (m.endHead.scanner .content) := by
  have hhead : (m.scanner state).endSpan 1 _ = _ :=
    endSpan_scanner (d := ['>']) hrecorded (by decide) fun stop s => { s with headEnd := some stop }
  unfold Scanner.endHead endHead
  rw [currentKind?_scanner hrecorded]
  show (if m.currentKind? = some .element then _ else _) = _
  by_cases hkind : m.currentKind? = some .element
  · obtain ⟨i, hcurrent⟩ : ∃ i, m.current = some i := by
      cases hcurrent : m.current with
      | none => simp [currentKind?, hcurrent] at hkind
      | some i => exact ⟨i, rfl⟩
    rw [if_pos hkind, if_pos hkind]
    have hscanner : (m.scanner state).current = some i := hcurrent
    have hbehind : (m.pass ['>']).current = some i := hcurrent
    rw [hhead, hscanner, hcurrent]
    dsimp only
    rw [hbehind]
    rfl
  · rw [if_neg hkind, if_neg hkind]
    exact endConstruct_scanner hrecorded .startTag

/-! ## Heads -/

theorem mode_skipBlock (m : Machine) (o : Opening) (t : List Char) :
    (m.skipBlock o t).1.mode = m.mode := by
  unfold skipBlock
  split <;> rfl

theorem block?_eq_none {c : Char} (h : ¬ (m.mode = .head ∧ c = '<' ∧ 0 < m.depth)) :
    m.block? (c :: t) = none := by
  cases hsome : m.block? (c :: t) with
  | none => rfl
  | some o =>
    obtain ⟨hmode, hdepth, -, u, hu⟩ := block?_eq_some hsome
    obtain ⟨r, hr⟩ := exists_mark_eq o
    rw [hr, List.cons_append] at hu
    exact absurd ⟨hmode, (List.cons.inj hu).1.symm, hdepth⟩ h

theorem follows_skipBlock {o : Opening} (hmode : m.mode = .head) (hp : o.mark <+: t)
    (h : m.At source t) :
    Follows source ((m.scanner .head).skipBlock (textBytes source) o) (.ok (m.skipBlock o t)) := by
  obtain ⟨hat, hskip⟩ := skipBlock_scanner hp h .head
  exact ⟨hat, .head, (mode_skipBlock m o t).trans hmode, hskip⟩

/-- A step that is not at a block. -/
theorem stepSkipping_of_block? {c : Char} (hterm : ¬ IsTerminator c)
    (hblock : m.block? (c :: t) = none) : m.stepSkipping (c :: t) = m.stepChar c t := by
  unfold stepSkipping
  rw [hblock, step_eq (not_splitsPair_of_not_isTerminator hterm [] t).2, if_neg hterm]

theorem follows_skipSubsetMarkup (hmode : m.mode = .head) (hdepth : 0 < m.depth)
    (h : m.At source ('<' :: t)) :
    Follows source ((m.scanner .head).skipSubsetMarkup (textBytes source))
      (m.stepSkipping ('<' :: t)) := by
  have hmark : ∀ o : Opening, (m.scanner .head).lookahead (textBytes source) o.mark =
      .ok (decide (o.mark <+: '<' :: t)) := fun o =>
    lookahead_scanner (isAsciiLine_mark o) h
  unfold Scanner.skipSubsetMarkup
  rw [hmark, hmark]
  show Follows source (if decide (_ <+: _) then _ else (if decide (_ <+: _) then _ else _)) _
  simp only [decide_eq_true_eq]
  have hblock : m.block? ('<' :: t) =
      if Opening.comment.mark <+: '<' :: t then some .comment
      else if Opening.instruction.mark <+: '<' :: t then some .instruction else none :=
    if_pos ⟨hmode, hdepth⟩
  by_cases hcomment : Opening.comment.mark <+: '<' :: t
  · rw [if_pos hcomment] at hblock
    rw [if_pos hcomment, stepSkipping, hblock]
    exact follows_skipBlock hmode hcomment h
  rw [if_neg hcomment] at hblock ⊢
  by_cases hinstruction : Opening.instruction.mark <+: '<' :: t
  · rw [if_pos hinstruction] at hblock
    rw [if_pos hinstruction, stepSkipping, hblock]
    exact follows_skipBlock hmode hinstruction h
  rw [if_neg hinstruction] at hblock ⊢
  have hpass : m.stepHead '<' t = (m.pass ['<'], t) := by
    simp [stepHead, isQuote, hcomment, hinstruction]
  rw [stepSkipping_of_block? (by decide) hblock, stepChar_head hmode, hpass]
  exact follows_pass (by decide) (by decide) hmode h

theorem lines_endHead (m : Machine) : m.endHead.lines = (m.pass ['>']).lines := by
  unfold endHead
  dsimp only
  split
  · split <;> rfl
  · exact lines_endSpan m ['>']

theorem mode_endHead (m : Machine) : m.endHead.mode = .content := by
  unfold endHead
  dsimp only
  split
  · split <;> rfl
  · exact mode_endSpan m ['>']

theorem lines_endEmptyTag (m : Machine) : m.endEmptyTag.lines = (m.pass ['/', '>']).lines := by
  unfold endEmptyTag
  dsimp only
  split <;> rfl

theorem mode_endEmptyTag (m : Machine) : m.endEmptyTag.mode = .content := by
  unfold endEmptyTag
  dsimp only
  split <;> rfl

theorem peek_scanner {c a : Char} (hc : IsAscii c) (ha : IsAscii a) (h : m.At source (c :: t)) :
    (m.scanner state).peek (textBytes source) 1 = some a.toUInt8 ↔ t.head? = some a := by
  have hget := h.getElem? 1
  rw [textBytes_cons, utf8EncodeChar_of_isAscii hc, List.singleton_append, List.getElem?_cons_succ,
    ← List.head?_eq_getElem?] at hget
  rw [Scanner.peek, show (m.scanner state).pos = m.offset from rfl, hget, head?_textBytes_iff ha]

theorem follows_stepHead {c : Char} (hc : IsAscii c) (hterm : ¬ IsTerminator c)
    (hmode : m.mode = .head) (hrecorded : Recorded m.spans m.opened m.current)
    (h : m.At source (c :: t)) :
    Follows source ((m.scanner .head).stepHead (textBytes source) c.toUInt8)
      (m.stepSkipping (c :: t)) := by
  have hsame : ∀ {a : Char}, IsAscii a → (c.toUInt8 = a.toUInt8 ↔ c = a) := fun ha => toUInt8_inj ha hc
  have hdepth : (m.scanner .head).depth = m.depth := rfl
  unfold Scanner.stepHead
  rw [currentKind?_scanner hrecorded]
  show Follows source (if c.toUInt8 = '"'.toUInt8 then _ else _) _
  simp only [hsame (a := '"') (by decide), hsame (a := '\'') (by decide), hsame (a := '/') (by decide),
    hsame (a := '[') (by decide), hsame (a := ']') (by decide), hsame (a := '<') (by decide),
    hsame (a := '>') (by decide), peek_scanner hc (a := '>') (by decide) h, hdepth]
  by_cases hnested : c = '<' ∧ 0 < m.depth
  · obtain ⟨rfl, hdepth⟩ := hnested
    rw [if_neg (by decide), if_neg (by decide), if_neg (by simp), if_neg (by simp), if_neg (by simp),
      if_pos ⟨rfl, hdepth⟩]
    exact follows_skipSubsetMarkup hmode hdepth h
  have hblock : m.block? (c :: t) = none := block?_eq_none fun hc => hnested ⟨hc.2.1, hc.2.2⟩
  rw [stepSkipping_of_block? hterm hblock, stepChar_head hmode, stepHead]
  by_cases hdouble : c = '"'
  · subst hdouble
    rw [if_pos rfl, if_pos (by decide)]
    exact follows_shift hc hterm .doubleQuoted h
  by_cases hsingle : c = '\''
  · subst hsingle
    rw [if_neg (by decide), if_pos rfl, if_pos (by decide)]
    exact follows_shift hc hterm .singleQuoted h
  have hquote : ¬ isQuote c := by simp [isQuote, hdouble, hsingle]
  rw [if_neg hdouble, if_neg hsingle, if_neg hquote]
  by_cases hempty : c = '/' ∧ m.currentKind? = some .element ∧ t.head? = some '>'
  · obtain ⟨t, rfl⟩ : ∃ u, t = '>' :: u := List.head?_eq_some_iff.mp hempty.2.2
    rw [if_pos hempty, if_pos hempty, endEmptyTag_scanner hrecorded]
    refine ⟨?_, .content, mode_endEmptyTag m, rfl⟩
    exact At.drop (d := ['/', '>']) (hempty.1 ▸ h) (by decide) (List.prefix_append ['/', '>'] t)
      (lines_endEmptyTag m)
  rw [if_neg hempty, if_neg hempty]
  -- With another depth the automaton passes a bracket as it passes any character.
  have hbracket : ∀ depth, Follows source (.ok ({ m.scanner .head with depth }.advance 1))
      (.ok ({ m with depth }.pass [c], t)) := fun depth =>
    follows_pass hc hterm hmode (h : { m with depth }.At source (c :: t))
  by_cases hopen : c = '[' ∧ m.currentKind? = some .declaration
  · obtain ⟨rfl, hkind⟩ := hopen
    rw [if_pos ⟨rfl, hkind⟩, if_pos ⟨hkind, .inl rfl⟩]
    exact hbracket (m.depth + 1)
  by_cases hclose : c = ']' ∧ m.currentKind? = some .declaration
  · obtain ⟨rfl, hkind⟩ := hclose
    rw [if_neg hopen, if_pos ⟨rfl, hkind⟩, if_pos ⟨hkind, .inr rfl⟩]
    exact hbracket (m.depth - 1)
  have hneither : ¬ (m.currentKind? = some .declaration ∧ (c = '[' ∨ c = ']')) := by
    rintro ⟨hkind, rfl | rfl⟩
    · exact hopen ⟨rfl, hkind⟩
    · exact hclose ⟨rfl, hkind⟩
  rw [if_neg hopen, if_neg hclose, if_neg hnested, if_neg hneither]
  by_cases hend : c = '>' ∧ m.depth = 0
  · rw [if_pos hend, if_pos hend, endHead_scanner hrecorded]
    refine ⟨?_, .content, mode_endHead m, rfl⟩
    exact At.drop (d := ['>']) (hend.1 ▸ h) (by decide) (List.prefix_append ['>'] t) (lines_endHead m)
  have hmark : ∀ o : Opening, ¬ (0 < m.depth ∧ o.mark <+: c :: t) := by
    intro o ho
    obtain ⟨r, hr⟩ := exists_mark_eq o
    rw [hr] at ho
    exact hnested ⟨(List.cons_prefix_cons.mp ho.2).1.symm, ho.1⟩
  rw [if_neg hend, if_neg hend, if_neg (hmark .comment), if_neg (hmark .instruction)]
  exact follows_pass hc hterm hmode h

end Machine

end XmlLocate
