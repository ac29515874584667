import XmlLocate.Proofs.BytewiseHeads

/-!
# Scans of bytes and scans of characters

**Theorem (`scans_agree`).** A scan of tokens, a scan of single characters, a scan that skips and a scan of
bytes give the same spans and lines, or the same failure at the same place.

The first three are scans of characters, which `StepwiseScan` and `SkippingScan` compare. The fourth is
followed here (`scanBytes_textBytes`). At an ASCII character the scanner and the automaton of
`Scan/Skipping` go on alike (`follows_react`). In a tag the scanner takes several turns for another
character, none of which changes more than the offset (`run_scanner_pass`). It is in a consistent state all
along, so that what it looks up is there.
-/

namespace XmlLocate

namespace Machine

variable {source t : List Char} {m : Machine} {state : ScanState}

/-! ## Turns -/

theorem stepSkipping_of_ne {c : Char} (hterm : ¬ IsTerminator c) (hmode : m.mode ≠ .head)
    (t : List Char) : m.stepSkipping (c :: t) = m.stepChar c t :=
  stepSkipping_of_block? hterm (block?_eq_none fun hc => hmode hc.1)

theorem bodyMode?_mode {o : Opening} (h : state.body? = some o) : bodyMode? o = some state.mode := by
  cases state <;> cases h <;> rfl

theorem follows_body {o : Opening} (hbody : state.body? = some o) {c : Char} (hc : IsAscii c)
    (hterm : ¬ IsTerminator c) (hmode : m.mode = state.mode) (h : m.At source (c :: t))
    (hrecorded : Recorded m.spans m.opened m.current) :
    Follows source ((m.scanner state).stepTo (textBytes source) o) (m.stepSkipping (c :: t)) := by
  have hbodyMode : bodyMode? o = some m.mode := by
    rw [hmode]
    exact bodyMode?_mode hbody
  have hhead : m.mode ≠ .head := by
    intro hm
    rw [hm] at hbodyMode
    cases o <;> cases hbodyMode
  rw [stepSkipping_of_ne hterm hhead, stepChar_body hbodyMode]
  exact follows_stepTo hc hterm hmode h hrecorded

theorem follows_step {c : Char} (hc : IsAscii c) (hterm : ¬ IsTerminator c)
    (hmode : m.mode = state.mode) (hconsistent : Scanner.Consistent (textBytes source) (m.scanner state))
    (h : m.At source (c :: t)) :
    Follows source ((m.scanner state).step (textBytes source) c.toUInt8) (m.stepSkipping (c :: t)) := by
  have hrecorded := recorded_scanner hconsistent
  have hpass := follows_pass hc hterm hmode h
  cases state with
  | head => exact follows_stepHead hc hterm hmode hrecorded h
  | content =>
    rw [stepSkipping_of_ne hterm (by rw [hmode]; decide)]
    show Follows source (if c.toUInt8 = '<'.toUInt8 then _ else _) _
    rw [if_congr (toUInt8_inj (by decide) hc) rfl rfl]
    by_cases hlt : c = '<'
    · subst hlt
      exact follows_beginMarkup hmode h
    · rw [if_neg hlt, stepChar, hmode]
      show Follows source _ (if c = '<' then _ else _)
      rw [if_neg hlt]
      exact hpass
  | closeTag =>
    rw [stepSkipping_of_ne hterm (by rw [hmode]; decide)]
    show Follows source (if c.toUInt8 = '>'.toUInt8 then _ else _) _
    rw [if_congr (toUInt8_inj (by decide) hc) rfl rfl, stepChar, hmode]
    show Follows source _ (if c = '>' then _ else _)
    by_cases hgt : c = '>'
    · subst hgt
      exact follows_endCloseTag rfl hconsistent h
    · rw [if_neg hgt, if_neg hgt]
      exact hpass
  | singleQuoted | doubleQuoted =>
    rw [stepSkipping_of_ne hterm (by rw [hmode]; decide)]
    exact follows_quoted (by decide) hc hterm hmode hmode h
  | comment | cdata | instruction => exact follows_body rfl hc hterm hmode h hrecorded

/-- **A turn of the scanner and a step of the automaton** at an ASCII character. -/
theorem follows_react {c : Char} (hc : IsAscii c) (hmode : m.mode = state.mode)
    (hconsistent : Scanner.Consistent (textBytes source) (m.scanner state))
    (h : m.At source (c :: t)) :
    Follows source ((m.scanner state).react (textBytes source)) (m.stepSkipping (c :: t)) := by
  have hget : (textBytes source)[m.offset]? = some c.toUInt8 := by
    have := h.getElem? 0
    rw [textBytes_cons, utf8EncodeChar_of_isAscii hc] at this
    exact this
  unfold Scanner.react
  rw [show (m.scanner state).pos = m.offset from rfl, hget]
  show Follows source (if endsLine c.toUInt8 then _ else _) _
  rw [endsLine_toUInt8 hc]
  by_cases hterm : IsTerminator c
  · have hblock : m.block? (c :: t) = none := by
      apply block?_eq_none
      rintro ⟨-, rfl, -⟩
      exact absurd hterm (by decide)
    rw [if_pos (decide_eq_true hterm), stepSkipping, hblock]
    exact follows_terminator hterm hmode h
  · rw [if_neg (by simpa using hterm)]
    exact follows_step hc hterm hmode hconsistent h

/-! ## The end of the text -/

theorem table_scanner (h : m.At source []) (state : ScanState) :
    (m.scanner state).table (textBytes source) = .ok m.lines := by
  have hlength : m.lines.length = (textBytes source).length := by
    rw [length_textBytes, ← h.offset_add]
    rfl
  obtain ⟨l, htable, hstarts, hlast⟩ := LineTable.exists_ofStarts? m.lines hlength.le
  obtain rfl : l = m.lines := LineTable.eq_of_starts hstarts (hlast.trans hlength.symm)
  unfold Scanner.table
  rw [show (m.scanner state).lineStarts = m.lines.starts from rfl, htable]
  rfl

theorem inHead_mode (s : ScanState) : s.mode.inHead = s.inHead := by
  cases s <;> rfl

theorem finish_scanner_inHead (hhead : state.inHead) (hmode : m.mode = state.mode)
    (hconsistent : Scanner.Consistent (textBytes source) (m.scanner state)) (h : m.At source []) :
    (m.scanner state).finish (textBytes source) = m.finish.mapError .failure := by
  obtain ⟨hcontent, hclose⟩ := ScanState.ne_of_inHead hhead
  obtain ⟨i, hi⟩ : ∃ i, m.current = some i :=
    Option.isSome_iff_exists.mp (hconsistent.current_isSome_iff.mpr ⟨hcontent, hclose⟩)
  obtain ⟨s, hs⟩ := exists_current (recorded_scanner hconsistent) hi
  have hfinish : m.finish = .error (m.headFailure s []) := by
    have := finish_inHead ⟨hi, hs⟩ (x := m.mode) (by rw [hmode, inHead_mode, hhead]) []
    rwa [pass_nil] at this
  have hbefore : s.start ≤ m.offset := (hconsistent.before s (Array.mem_of_getElem? hs)).1.le
  have hhead : (m.scanner state).state.inHead := hhead
  have hcurrent : (m.scanner state).current = some i := hi
  have hspan : (m.scanner state).spans[i]? = some s := hs
  unfold Scanner.finish
  dsimp only
  rw [if_neg fun hc => hclose hc.1, table_scanner h, if_pos hhead, hcurrent, hfinish, headFailure,
    LineTable.extend_nil]
  dsimp only [bind, Except.bind]
  rw [hspan]
  exact fail_scanner h rfl hbefore _

theorem finish_scanner_of_not_inHead (hhead : ¬ state.inHead) (hmode : m.mode = state.mode)
    (hconsistent : Scanner.Consistent (textBytes source) (m.scanner state)) (h : m.At source []) :
    (m.scanner state).finish (textBytes source) = m.finish.mapError .failure := by
  have hnot : m.mode.inHead = false := by
    rw [hmode, inHead_mode]
    simpa using hhead
  have hclose : m.mode = .closeTag ↔ state = .closeTag := by
    rw [hmode]
    cases state <;> decide
  have hbalanced : (m.scanner state).opened.isBalanced = m.opened.isEmpty :=
    OpenStack.isBalanced_of m.opened
  have hpeek : (m.scanner state).opened.peek = m.opened.head? := OpenStack.peek_of m.opened
  have hhead' : ¬ (m.scanner state).state.inHead := hhead
  unfold Scanner.finish
  rw [finish_of_not_inHead hnot]
  dsimp only
  rw [table_scanner h]
  cases hopened : m.opened with
  | nil =>
    by_cases hc : state = .closeTag
    · rw [if_pos ⟨hc, by rw [hbalanced, hopened]; rfl⟩]
      dsimp only
      rw [if_pos (hclose.mpr hc)]
      exact fail_scanner h rfl hconsistent.markupStart_le _
    · rw [if_neg fun h => hc h.1, if_neg hhead', hpeek, hopened]
      dsimp only
      rw [if_neg fun h => hc (hclose.mp h)]
      rfl
  | cons i outer =>
    have hmem : i ∈ m.opened := by
      rw [hopened]
      exact List.mem_cons_self
    obtain ⟨s, hs, -⟩ := ((recorded_scanner hconsistent).opened_iff i).mp hmem
    have hbefore : s.start ≤ m.offset := (hconsistent.before s (Array.mem_of_getElem? hs)).1.le
    have hspan : (m.scanner state).spans[i]? = some s := hs
    have hopen : ¬ ((m.scanner state).state = .closeTag ∧ (m.scanner state).opened.isBalanced) := by
      rw [hbalanced, hopened]
      exact fun h => by cases h.2
    rw [if_neg hopen, if_neg hhead', hpeek, hopened]
    dsimp only [bind, Except.bind, List.head?_cons]
    rw [hspan, hs]
    exact fail_scanner h rfl hbefore _

theorem finish_scanner (hmode : m.mode = state.mode)
    (hconsistent : Scanner.Consistent (textBytes source) (m.scanner state)) (h : m.At source []) :
    (m.scanner state).finish (textBytes source) = m.finish.mapError .failure := by
  by_cases hhead : state.inHead
  · exact finish_scanner_inHead hhead hmode hconsistent h
  · exact finish_scanner_of_not_inHead hhead hmode hconsistent h

/-! ## Characters of several bytes -/

/-- In a tag the bytes of a character that is not ASCII change nothing. -/
theorem react_of_le {bytes : List UInt8} {σ : Scanner} {b : UInt8} (hb : bytes[σ.pos]? = some b)
    (hle : 128 ≤ b.toNat) (hstop : σ.state.stop? = none) {kind : Option SpanKind}
    (hkind : σ.currentKind? = .ok kind) : σ.react bytes = .ok (σ.advance 1) := by
  have hne : ∀ {a : Char}, IsAscii a → b ≠ a.toUInt8 := ne_toUInt8_of_le hle
  unfold Scanner.react
  rw [hb]
  show (if endsLine b then _ else _) = _
  rw [endsLine_of_le hle, if_neg (by decide)]
  cases hstate : σ.state with
  | content | singleQuoted | doubleQuoted | comment | cdata | instruction =>
    rw [hstate] at hstop
    cases hstop
  | closeTag =>
    simp only [Scanner.step, hstate]
    rw [if_neg (hne (a := '>') (by decide))]
  | head =>
    simp only [Scanner.step, hstate]
    unfold Scanner.stepHead
    rw [hkind]
    show (if b = '"'.toUInt8 then _ else _) = _
    rw [if_neg (hne (a := '"') (by decide)), if_neg (hne (a := '\'') (by decide)),
      if_neg fun h => hne (a := '/') (by decide) h.1, if_neg fun h => hne (a := '[') (by decide) h.1,
      if_neg fun h => hne (a := ']') (by decide) h.1, if_neg fun h => hne (a := '<') (by decide) h.1,
      if_neg fun h => hne (a := '>') (by decide) h.1]
    rfl

theorem scanner_skipInert_of_stop? {bytes : List UInt8} {σ : Scanner} (hstop : σ.state.stop? = none)
    (hlt : σ.pos < bytes.length) : σ.skipInert bytes = .ok (σ, true) := by
  have hrest : (bytes.drop σ.pos).isEmpty = false := by
    rw [List.drop_eq_getElem_cons hlt]
    rfl
  unfold Scanner.skipInert
  rw [bytesFrom?_eq_some.mpr ⟨Nat.le_of_lt hlt, rfl⟩, hstop]
  show Except.ok (σ, !(bytes.drop σ.pos).isEmpty) = _
  rw [hrest]
  rfl

theorem run_advance {bytes : List UInt8} {σ : Scanner} {n : Nat}
    (hbytes : ∀ k < n, ∃ b, bytes[σ.pos + k]? = some b ∧ 128 ≤ b.toNat)
    (hstop : σ.state.stop? = none) {kind : Option SpanKind} (hkind : σ.currentKind? = .ok kind) :
    σ.run bytes = (σ.advance n).run bytes := by
  induction n generalizing σ with
  | zero => rfl
  | succ n ih =>
    obtain ⟨b, hb, hle⟩ := hbytes 0 (Nat.succ_pos n)
    have hskip := scanner_skipInert_of_stop? hstop (List.getElem?_eq_some_iff.mp hb).1
    have hbehind : ∀ k < n, ∃ b, bytes[σ.pos + 1 + k]? = some b ∧ 128 ≤ b.toNat := by
      intro k hk
      rw [Nat.add_assoc, Nat.add_comm 1]
      exact hbytes (k + 1) (Nat.succ_lt_succ hk)
    have hrun : (σ.advance 1).run bytes = ((σ.advance 1).advance n).run bytes :=
      ih hbehind hstop hkind
    rw [Scanner.run_of_turn hskip (react_of_le hb hle hstop hkind), hrun]
    show Scanner.run bytes { σ with pos := σ.pos + 1 + n } =
      Scanner.run bytes { σ with pos := σ.pos + (n + 1) }
    rw [Nat.add_assoc, Nat.add_comm 1]

/-- A character is passed in a tag as the automaton passes it. -/
theorem run_scanner_pass {c : Char} (hc : ¬ IsAscii c) (hstop : state.stop? = none)
    (hrecorded : Recorded m.spans m.opened m.current) (h : m.At source (c :: t)) :
    (m.scanner state).run (textBytes source) = ((m.pass [c]).scanner state).run (textBytes source) := by
  have hbytes : ∀ k < c.utf8Size, ∃ b, (textBytes source)[m.offset + k]? = some b ∧ 128 ≤ b.toNat := by
    intro k hk
    rw [← String.length_utf8EncodeChar] at hk
    refine ⟨_, ?_, le_of_mem_utf8EncodeChar hc (List.getElem_mem hk)⟩
    rw [h.getElem?, textBytes_cons, List.getElem?_append_left hk, List.getElem?_eq_getElem hk]
  have hterm : ¬ IsTerminator c := fun h => hc (isAscii_of_isTerminator h)
  rw [run_advance hbytes hstop (currentKind?_scanner hrecorded), scanner_pass (by simpa using hterm),
    byteLength_cons, byteLength_nil]
  rfl

theorem stepSkipping_of_not_isAscii {c : Char} (hc : ¬ IsAscii c) (hmode : m.mode = state.mode)
    (hstop : state.stop? = none) (t : List Char) : m.stepSkipping (c :: t) = .ok (m.pass [c], t) := by
  have hne : ∀ {a : Char}, IsAscii a → c ≠ a := by
    rintro a ha rfl
    exact hc ha
  have hterm : ¬ IsTerminator c := fun h => hc (isAscii_of_isTerminator h)
  cases state with
  | content | singleQuoted | doubleQuoted | comment | cdata | instruction => cases hstop
  | closeTag =>
    rw [stepSkipping_of_ne hterm (by rw [hmode]; decide), stepChar, hmode]
    exact if_neg (hne (by decide))
  | head =>
    have hlt : c ≠ '<' := hne (by decide)
    rw [stepSkipping_of_block? hterm (block?_eq_none fun h => hlt h.2.1), stepChar_head hmode]
    simp [stepHead, isQuote, hne (a := '\'') (by decide), hne (a := '"') (by decide),
      hne (a := '/') (by decide), hne (a := '[') (by decide), hne (a := ']') (by decide),
      hne (a := '>') (by decide), Opening.mark, hlt.symm]

/-! ## Runs -/

theorem skipInert_of_stop?_eq_none (hmode : m.mode = state.mode) (hstop : state.stop? = none) :
    m.skipInert t = (m, t) := by
  rw [ScanState.stop?_mode, Option.map_eq_none_iff, ← hmode] at hstop
  unfold skipInert
  rw [hstop]

/-- Where `skipInert` stops in a mode that does not look at all characters there is an ASCII character. -/
theorem isAscii_of_skipInert {c : Char} {u : List Char} (hmode : m.mode = state.mode)
    (hstop : state.stop? ≠ none) (h : (m.skipInert t).2 = c :: u) : IsAscii c := by
  rw [ScanState.stop?_mode, ← hmode] at hstop
  cases hstop' : m.mode.stop? with
  | none => simp [hstop'] at hstop
  | some stop =>
    unfold skipInert at h
    rw [hstop'] at h
    have hfirst := List.head?_dropWhile_not (isInert stop) t
    rw [show t.dropWhile (isInert stop) = c :: u from h] at hfirst
    refine ((testsFor_isInert ?_).1 c (by simpa using hfirst)).1
    exact isAscii_of_stop? (hmode ▸ hstop')

/-- **The scanner ends as the automaton does,** from all that both have read. -/
theorem run_scanner (hmode : m.mode = state.mode)
    (hconsistent : Scanner.Consistent (textBytes source) (m.scanner state)) (h : m.At source t) :
    (m.scanner state).run (textBytes source) = (m.run t).mapError .failure := by
  obtain ⟨n, hn⟩ : ∃ n, t.length = n := ⟨_, rfl⟩
  induction n using Nat.strong_induction_on generalizing m state t with
  | _ n ih =>
    subst hn
    obtain ⟨hat, hmode₁, hskip⟩ := skipInert_scanner h hmode
    have hconsistent₁ := hconsistent.skipInert hskip
    have hshort := length_skipInert m t
    rw [← run_skipInert m t]
    cases hrest : (m.skipInert t).2 with
    | nil =>
      rw [hrest] at hat hskip
      rw [Scanner.run_eq, hskip, run_nil]
      exact finish_scanner hmode₁ hconsistent₁ hat
    | cons c u =>
      rw [hrest] at hat hskip hshort
      rw [← stepSkipping_bind]
      by_cases hc : IsAscii c
      · have hfollows := follows_react hc hmode₁ hconsistent₁ hat
        rw [Scanner.run_eq, hskip]
        show (((m.skipInert t).1.scanner state).react (textBytes source) >>= fun σ => σ.run _) = _
        cases hstep : (m.skipInert t).1.stepSkipping (c :: u) with
        | error e =>
          rw [hstep] at hfollows
          rw [show _ = _ from hfollows]
          rfl
        | ok p =>
          obtain ⟨m₂, rest⟩ := p
          have hlt := length_stepSkipping hstep
          rw [hstep] at hfollows
          obtain ⟨hat₂, state₂, hmode₂, hreact⟩ := hfollows
          rw [hreact]
          rw [List.length_cons] at hshort
          exact ih rest.length (by omega) hmode₂ (hconsistent₁.turn (Scanner.turn_of_react hreact))
            hat₂ rfl
      · have hstop : state.stop? = none := by
          by_contra hne
          exact hc (isAscii_of_skipInert hmode hne hrest)
        obtain rfl : t = c :: u := by
          rwa [skipInert_of_stop?_eq_none hmode hstop] at hrest
        have hterm : ¬ IsTerminator c := fun h => hc (isAscii_of_isTerminator h)
        have hat' : (m.pass [c]).At source u :=
          At.pass h (not_splitsPair_of_not_isTerminator hterm [] u).2
        have hconsistent' : Scanner.Consistent (textBytes source) ((m.pass [c]).scanner state) :=
          hconsistent.pass (Nat.le_add_right _ _) ?_ ?_ (m.pass [c]).lines.starts
        · rw [run_scanner_pass hc hstop (recorded_scanner hconsistent) h,
            skipInert_of_stop?_eq_none hmode hstop, stepSkipping_of_not_isAscii hc hmode hstop]
          exact ih u.length (Nat.lt_succ_self _) hmode hconsistent' hat' rfl
        · rw [length_textBytes, ← hat'.offset_add]
          exact Nat.le_add_right _ _
        · intro hcontent
          rw [show state = .content from hcontent] at hstop
          cases hstop

end Machine

/-- **A scan of bytes is a scan of characters:** it gives the same spans and lines, or fails in the same
way, and all that it takes out of the bytes and the lists is there. -/
theorem scanBytes_textBytes (source : List Char) :
    scanBytes (textBytes source) = (scan source).mapError .failure := by
  have hempty : Scanner.empty = Machine.empty.scanner .content := rfl
  rw [← scanStepwise_eq, scanBytes, hempty]
  exact Machine.run_scanner rfl (Scanner.consistent_empty _) (Machine.at_empty source)

/-- **All scans agree** on every text with the scan of single characters. -/
theorem scans_agree (source : List Char) :
    scan source = scanStepwise source ∧ scanSkipping source = scanStepwise source ∧
      scanBytes (textBytes source) = (scanStepwise source).mapError .failure := by
  refine ⟨(scanStepwise_eq source).symm, scanSkipping_eq source, ?_⟩
  rw [scanStepwise_eq, scanBytes_textBytes]

/-- **The states of a scan are consistent.** A scan of a text is one of its bytes. Whatever the bytes are,
each state in which the next byte is looked for leads to the result of the scan and is consistent. -/
theorem scanner_consistent :
    (∀ source, scanBytes (textBytes source) = (scan source).mapError .failure) ∧
      ∀ (bytes : List UInt8) (σ : Scanner), Scanner.Reachable bytes σ →
        σ.run bytes = scanBytes bytes ∧ Scanner.Consistent bytes σ :=
  ⟨scanBytes_textBytes, fun _ _ h => ⟨h.run_eq, h.consistent⟩⟩

/-- In the brackets of a declaration, behind a start tag and a text. -/
theorem scanner_consistent_in_brackets :
    let σ : Scanner := ⟨7, .head, 3, 4, some 2, 1, .of [0], #[⟨0, .element, 0, some 3, none⟩,
      ⟨1, .text, 3, none, some 4⟩, ⟨2, .declaration, 4, none, none⟩], #[0]⟩
    Scanner.Reachable (textBytes "<a>t<![".toList) σ ∧
      σ.run (textBytes "<a>t<![".toList) = scanBytes (textBytes "<a>t<![".toList) ∧
      Scanner.Consistent (textBytes "<a>t<![".toList) σ := by
  have h₁ : Scanner.Reachable (textBytes "<a>t<![".toList)
      ⟨1, .head, 0, 0, some 0, 0, .of [], #[⟨0, .element, 0, none, none⟩], #[0]⟩ :=
    .turn .empty rfl rfl
  have h₂ : Scanner.Reachable (textBytes "<a>t<![".toList)
      ⟨2, .head, 0, 0, some 0, 0, .of [], #[⟨0, .element, 0, none, none⟩], #[0]⟩ :=
    .turn h₁ rfl rfl
  have h₃ : Scanner.Reachable (textBytes "<a>t<![".toList)
      ⟨3, .content, 3, 0, none, 0, .of [0], #[⟨0, .element, 0, some 3, none⟩], #[0]⟩ :=
    .turn h₂ rfl rfl
  have h₄ : Scanner.Reachable (textBytes "<a>t<![".toList)
      ⟨6, .head, 3, 4, some 2, 0, .of [0], #[⟨0, .element, 0, some 3, none⟩,
        ⟨1, .text, 3, none, some 4⟩, ⟨2, .declaration, 4, none, none⟩], #[0]⟩ :=
    .turn h₃ rfl rfl
  have h₅ := Scanner.Reachable.turn h₄ rfl rfl
  exact ⟨h₅, scanner_consistent.2 _ _ h₅⟩

end XmlLocate
