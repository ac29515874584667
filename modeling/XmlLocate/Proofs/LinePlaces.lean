import XmlLocate.Proofs.LineEndings
import XmlLocate.Proofs.Relocation
import XmlLocate.Proofs.ScanLines

/-!
# Scans of texts with other line endings

**Theorem (`scan_lineEndings`).** If the lines of a text end in line feeds, carriage returns in their
place change nothing in its scan. With pairs in their place each offset grows by the number of line feeds
before it, and every line and column stays.

The offsets come from the tokens (`relocates_lex_write`). The lines come from the line breaks: a pair
puts the break of line `i` further back by `i` bytes, which is how far an offset on that line moves.
-/

namespace XmlLocate

/-! ## Offsets -/

/-- The number of line feeds of a text that begin before an offset. -/
def lineFeedsBefore : List Char → Nat → Nat
  | [], _ => 0
  | c :: t, offset =>
    if offset = 0 then 0
    else (if c = '\n' then 1 else 0) + lineFeedsBefore t (offset - c.utf8Size)

/-- The offset that corresponds to an offset of the text, if its line feeds are written as pairs. -/
def pairOffset (t : List Char) (offset : Nat) : Nat := offset + lineFeedsBefore t offset

theorem lineFeedsBefore_zero (t : List Char) : lineFeedsBefore t 0 = 0 := by
  cases t <;> simp [lineFeedsBefore]

theorem lineFeedsBefore_append (a b : List Char) :
    lineFeedsBefore (a ++ b) (byteLength a) = a.count '\n' := by
  induction a with
  | nil => exact lineFeedsBefore_zero b
  | cons c a ih =>
    have := c.utf8Size_pos
    rw [List.cons_append, byteLength_cons, lineFeedsBefore, if_neg (by omega), Nat.add_sub_cancel_left,
      ih, List.count_cons, Nat.add_comm]
    simp

theorem lineFeedsBefore_mono (t : List Char) {x y : Nat} (h : x ≤ y) :
    lineFeedsBefore t x ≤ lineFeedsBefore t y := by
  induction t generalizing x y with
  | nil => exact Nat.le_refl _
  | cons c t ih =>
    rw [lineFeedsBefore, lineFeedsBefore]
    by_cases hx : x = 0
    · rw [if_pos hx]
      exact Nat.zero_le _
    · have hy : y ≠ 0 := by omega
      rw [if_neg hx, if_neg hy]
      exact Nat.add_le_add_left (ih (by omega)) _

theorem byteLength_write (e : LineEnding) (t : List Char) :
    byteLength (e.write t) = byteLength t + (byteLength e.text - 1) * t.count '\n' := by
  induction t with
  | nil => rfl
  | cons c t ih =>
    by_cases hc : c = '\n'
    · subst hc
      have hsize : ('\n').utf8Size = 1 := rfl
      have hpos : 0 < byteLength e.text := by cases e <;> decide
      rw [LineEnding.write_lineFeed, byteLength_append, byteLength_cons, List.count_cons_self, ih,
        Nat.mul_add, hsize]
      omega
    · rw [LineEnding.write_cons hc, byteLength_cons, byteLength_cons, List.count_cons_of_ne hc, ih]
      omega

theorem byteLength_write_carriageReturn (t : List Char) :
    byteLength (LineEnding.carriageReturn.write t) = byteLength t := by
  rw [byteLength_write]
  exact Nat.add_eq_left.mpr (Nat.zero_mul _)

theorem byteLength_write_pair (t : List Char) :
    byteLength (LineEnding.pair.write t) = byteLength t + t.count '\n' := by
  rw [byteLength_write]
  exact congrArg (byteLength t + ·) (Nat.one_mul _)

theorem pairOffset_append (a b : List Char) :
    pairOffset (a ++ b) (byteLength a) = byteLength (LineEnding.pair.write a) := by
  rw [pairOffset, lineFeedsBefore_append, byteLength_write_pair]

theorem pairOffset_byteLength (t : List Char) :
    pairOffset t (byteLength t) = byteLength (LineEnding.pair.write t) := by
  simpa using pairOffset_append t []

/-! ## Tokens -/

/-- The tokens stand where the lengths of those before them put them. -/
theorem relocates_write {f : Nat → Nat} {e : LineEnding} {ks : List Token} {offset offset' : Nat}
    (hf : ∀ xs ys, ks = xs ++ ys →
      f (offset + lengthOf xs) = offset' + byteLength (e.write (xs.flatMap Token.text))) :
    Relocates f offset ks offset' (ks.map (Token.write e)) := by
  induction ks generalizing offset offset' with
  | nil => exact .nil (hf [] [] rfl).symm
  | cons k ks ih =>
    refine .cons (hf [] (k :: ks) rfl).symm rfl rfl (ih ?_)
    rintro xs ys rfl
    have := hf (k :: xs) ys rfl
    rw [lengthOf_cons, List.flatMap_cons, LineEnding.write_append, byteLength_append] at this
    rw [Nat.add_assoc, Nat.add_assoc]
    exact this

theorem relocates_lex_write {f : Nat → Nat} {e : LineEnding} {t : List Char}
    (hf : ∀ a b, t = a ++ b → f (byteLength a) = byteLength (e.write a)) :
    Relocates f 0 (Token.lex t) 0 (Token.lex (e.write t)) := by
  rw [Token.lex_write]
  refine relocates_write ?_
  intro xs ys h
  rw [Nat.zero_add, Nat.zero_add]
  refine hf _ (ys.flatMap Token.text) ?_
  rw [← List.flatMap_append, ← h, Token.texts_lex]

/-! ## Lines -/

section Lines

variable {t : List Char}

theorem not_splitsPair_of_ne {c : Char} (hc : c ≠ '\r') (t : List Char) : ¬ SplitsPair [c] t :=
  not_splitsPair_of_concat hc [] t

theorem lineBreaks_lineFeed (base : Nat) (t : List Char) :
    lineBreaks base ('\n' :: t) = (base + 1) :: lineBreaks (base + 1) t :=
  lineBreaks_cons (not_splitsPair_of_ne (by decide) t) base

theorem lineBreaks_other {c : Char} (hlf : c ≠ '\n') (hcr : c ≠ '\r') (base : Nat) (t : List Char) :
    lineBreaks base (c :: t) = lineBreaks (base + c.utf8Size) t := by
  rw [lineBreaks_cons (not_splitsPair_of_ne hcr t), if_neg (by simp [hlf, hcr]), List.nil_append]

theorem ne_of_notMem_cons {c : Char} {t : List Char} (h : '\r' ∉ c :: t) : c ≠ '\r' ∧ '\r' ∉ t := by
  rw [List.mem_cons, not_or] at h
  exact ⟨Ne.symm h.1, h.2⟩

/-- The line breaks at or before an offset are those of the line feeds before it. -/
theorem lineBreaks_le_iff (ht : '\r' ∉ t) {base x j s : Nat} (hs : (lineBreaks base t)[j]? = some s) :
    s ≤ base + x ↔ j < lineFeedsBefore t x := by
  induction t generalizing base x j with
  | nil => simp [lineBreaks] at hs
  | cons c t ih =>
    obtain ⟨hcr, hrest⟩ := ne_of_notMem_cons ht
    have hlt := lt_of_mem_lineBreaks (List.mem_of_getElem? hs)
    rw [lineFeedsBefore]
    by_cases hx : x = 0
    · rw [if_pos hx]
      omega
    rw [if_neg hx]
    by_cases hlf : c = '\n'
    · subst hlf
      have hsize : ('\n').utf8Size = 1 := rfl
      rw [if_pos rfl, hsize]
      rw [lineBreaks_lineFeed] at hs
      cases j with
      | zero =>
        obtain rfl : base + 1 = s := by simpa using hs
        omega
      | succ j =>
        have := ih hrest (x := x - 1) (by simpa using hs)
        omega
    · rw [lineBreaks_other hlf hcr] at hs
      rw [if_neg hlf, Nat.zero_add, ← ih hrest (x := x - c.utf8Size) hs]
      have := lt_of_mem_lineBreaks (List.mem_of_getElem? hs)
      omega

theorem lineFeedsBefore_le (ht : '\r' ∉ t) (base x : Nat) :
    lineFeedsBefore t x ≤ (lineBreaks base t).length := by
  induction t generalizing base x with
  | nil => exact Nat.zero_le _
  | cons c t ih =>
    obtain ⟨hcr, hrest⟩ := ne_of_notMem_cons ht
    rw [lineFeedsBefore]
    by_cases hx : x = 0
    · rw [if_pos hx]
      exact Nat.zero_le _
    rw [if_neg hx]
    by_cases hlf : c = '\n'
    · subst hlf
      have := ih hrest (base + 1) (x - ('\n').utf8Size)
      rw [if_pos rfl, lineBreaks_lineFeed, List.length_cons]
      omega
    · rw [if_neg hlf, Nat.zero_add, lineBreaks_other hlf hcr]
      exact ih hrest _ _

/-- The breaks of a text with pairs: each is moved by the line feeds up to it. -/
theorem lineBreaks_write_pair (ht : '\r' ∉ t) (base moved j : Nat) :
    (lineBreaks (base + moved) (LineEnding.pair.write t))[j]? =
      (lineBreaks base t)[j]?.map (· + moved + (j + 1)) := by
  induction t generalizing base moved j with
  | nil => rfl
  | cons c t ih =>
    obtain ⟨hcr, hrest⟩ := ne_of_notMem_cons ht
    by_cases hlf : c = '\n'
    · subst hlf
      have hnext : base + moved + 2 = base + 1 + (moved + 1) := by omega
      rw [LineEnding.write_lineFeed]
      show (lineBreaks (base + moved) ('\r' :: '\n' :: LineEnding.pair.write t))[j]? = _
      rw [lineBreaks_pair, lineBreaks_lineFeed, hnext]
      cases j with
      | zero => simp; omega
      | succ j =>
        rw [List.getElem?_cons_succ, List.getElem?_cons_succ, ih hrest]
        congr 1
        funext s
        omega
    · have hnext : base + moved + c.utf8Size = base + c.utf8Size + moved := by omega
      rw [LineEnding.write_cons hlf, lineBreaks_other hlf hcr, lineBreaks_other hlf hcr, hnext]
      exact ih hrest _ _ _

theorem not_splitsPair_write_carriageReturn (t : List Char) :
    ¬ SplitsPair ['\r'] (LineEnding.carriageReturn.write t) := by
  rintro ⟨-, hhead⟩
  cases t with
  | nil => simp at hhead
  | cons c t =>
    by_cases hc : c = '\n'
    · simp [hc, LineEnding.text] at hhead
    · simp [LineEnding.write_cons hc, hc] at hhead

theorem lineBreaks_write_carriageReturn (ht : '\r' ∉ t) (base : Nat) :
    lineBreaks base (LineEnding.carriageReturn.write t) = lineBreaks base t := by
  induction t generalizing base with
  | nil => rfl
  | cons c t ih =>
    obtain ⟨hcr, hrest⟩ := ne_of_notMem_cons ht
    by_cases hlf : c = '\n'
    · subst hlf
      rw [LineEnding.write_lineFeed, lineBreaks_lineFeed, ← ih hrest]
      exact lineBreaks_cons (not_splitsPair_write_carriageReturn t) base
    · rw [LineEnding.write_cons hlf, lineBreaks_other hlf hcr, lineBreaks_other hlf hcr, ih hrest]

theorem ofText_write_carriageReturn (ht : '\r' ∉ t) :
    LineTable.ofText (LineEnding.carriageReturn.write t) = .ofText t := by
  apply LineTable.eq_of_starts
  · show #[0] ++ lineBreaks 0 _ = #[0] ++ lineBreaks 0 t
    rw [lineBreaks_write_carriageReturn ht]
  · show 0 + byteLength _ = 0 + byteLength t
    rw [byteLength_write_carriageReturn]

namespace LineTable

/-- **The line of an offset is the number of line feeds before it.** -/
theorem lineOf_ofText (ht : '\r' ∉ t) (offset : Nat) :
    (ofText t).lineOf offset = lineFeedsBefore t offset := by
  rw [lineOf_eq_iff]
  refine ⟨?_, ?_⟩
  · cases hi : lineFeedsBefore t offset with
    | zero => exact ⟨0, (ofText t).first, Nat.zero_le _⟩
    | succ i =>
      have hlt : i < (lineBreaks 0 t).length := by
        have := lineFeedsBefore_le ht 0 offset
        omega
      have hget := List.getElem?_eq_getElem hlt
      have hstart : (ofText t).starts[i + 1]? = some (lineBreaks 0 t)[i] := by
        rw [getElem?_ofText, List.getElem?_cons_succ, hget]
      have hle := (lineBreaks_le_iff ht (x := offset) hget).mpr (by omega)
      have hbound := (ofText t).bounded _ (Array.mem_of_getElem? hstart)
      exact ⟨_, hstart, by omega⟩
  · intro j hj s hs
    obtain ⟨j, rfl⟩ := Nat.exists_eq_add_one.mpr (Nat.zero_lt_of_lt hj)
    rw [getElem?_ofText, List.getElem?_cons_succ] at hs
    have := (lineBreaks_le_iff ht (x := offset) hs).not.mpr (by omega)
    omega

/-- The lines of a text with pairs: each begins further back by its number. -/
theorem getElem?_ofText_write_pair (ht : '\r' ∉ t) (i : Nat) :
    (ofText (LineEnding.pair.write t)).starts[i]? = (ofText t).starts[i]?.map (· + i) := by
  rw [getElem?_ofText, getElem?_ofText]
  cases i with
  | zero => rfl
  | succ i =>
    have := lineBreaks_write_pair ht 0 0 i
    simpa using this

/-- An offset moves by the number of its line, and so does the end of the text. -/
theorem min_pairOffset (ht : '\r' ∉ t) (offset : Nat) :
    min (pairOffset t offset) (ofText (LineEnding.pair.write t)).length =
      min offset (ofText t).length + (ofText t).lineOf offset := by
  rw [length_ofText, length_ofText, ← pairOffset_byteLength, lineOf_ofText ht]
  unfold pairOffset
  rcases Nat.le_total offset (byteLength t) with h | h
  · have := lineFeedsBefore_mono t h
    omega
  · have hline : (ofText t).lineOf offset = (ofText t).lineOf (byteLength t) := by
      rw [lineOf_eq_iff, length_ofText, Nat.min_eq_right h]
      have := lineOf_eq_iff.mp (rfl : (ofText t).lineOf (byteLength t) = _)
      rwa [length_ofText, Nat.min_self] at this
    rw [lineOf_ofText ht, lineOf_ofText ht] at hline
    omega

theorem lineOf_pairOffset (ht : '\r' ∉ t) (offset : Nat) :
    (ofText (LineEnding.pair.write t)).lineOf (pairOffset t offset) = (ofText t).lineOf offset := by
  obtain ⟨⟨s, hs, hle⟩, hlater⟩ := lineOf_eq_iff.mp (rfl : (ofText t).lineOf offset = _)
  rw [lineOf_eq_iff, min_pairOffset ht]
  refine ⟨⟨s + (ofText t).lineOf offset, ?_, ?_⟩, ?_⟩
  · rw [getElem?_ofText_write_pair ht, hs]
    rfl
  · exact Nat.add_le_add_right hle _
  · intro j hj s' hs'
    rw [getElem?_ofText_write_pair ht] at hs'
    obtain ⟨s, hs, rfl⟩ := Option.map_eq_some_iff.mp hs'
    have := hlater j hj s hs
    omega

theorem columnOf_pairOffset (ht : '\r' ∉ t) (offset : Nat) :
    (ofText (LineEnding.pair.write t)).columnOf (pairOffset t offset) = (ofText t).columnOf offset := by
  obtain ⟨s, hs, -⟩ := (lineOf_eq_iff.mp (rfl : (ofText t).lineOf offset = _)).1
  have hs' : (ofText (LineEnding.pair.write t)).starts[(ofText (LineEnding.pair.write t)).lineOf
      (pairOffset t offset)]? = some (s + (ofText t).lineOf offset) := by
    rw [lineOf_pairOffset ht, getElem?_ofText_write_pair ht, hs]
    rfl
  rw [columnOf_eq hs, columnOf_eq hs', min_pairOffset ht, Nat.add_sub_add_right]

end LineTable

end Lines

/-! ## Scans -/

/-- The line and column of the beginning of a span, of the end of its start tag and of its end. An end
that the span does not have is that of the text. -/
def Span.places (lines : LineTable) (s : Span) : List (Nat × Nat) :=
  [s.start, s.headEnd.getD lines.length, s.stop.getD lines.length].map fun offset =>
    (lines.lineOf offset, lines.columnOf offset)

/-- Two scans differ in offsets alone, which `f` takes from the first to the second. -/
inductive SamePlaces (f : Nat → Nat) : Except ScanError Scan → Except ScanError Scan → Prop
  | ok {s s' : Scan} : SameSpans f s s' →
      s'.spans.map (Span.places s'.lines) = s.spans.map (Span.places s.lines) →
      SamePlaces f (.ok s) (.ok s')
  | error (e : ScanError) : SamePlaces f (.error e) (.error { e with offset := f e.offset })

theorem Span.relocate_id (s : Span) : s.relocate id id = s := by
  simp [Span.relocate]

/-- A failure is known from its cause, its offset and the lines of the text. -/
theorem HasLinesOf.error_eq {t : List Char} {e : ScanError} (h : HasLinesOf t (.error e)) :
    e = .ofOffset (.ofText t) e.offset e.cause := by
  obtain ⟨-, hline, hcolumn⟩ := h
  cases e
  simp only [ScanError.ofOffset, ScanError.mk.injEq, true_and]
  exact ⟨hline, hcolumn⟩

/-- **Carriage returns in place of line feeds change nothing.** -/
theorem scan_write_carriageReturn {t : List Char} (ht : '\r' ∉ t) :
    scan (LineEnding.carriageReturn.write t) = scan t := by
  have hrelocates : Relocates id 0 (Token.lex t) 0 (Token.lex (LineEnding.carriageReturn.write t)) :=
    relocates_lex_write fun a _ _ => (byteLength_write_carriageReturn a).symm
  have hlines := hasLinesOf_scan t
  have hlines' := hasLinesOf_scan (LineEnding.carriageReturn.write t)
  have hsame := hrelocates.scan
  generalize scan t = r at hlines hsame
  generalize scan (LineEnding.carriageReturn.write t) = r' at hlines' hsame
  cases hsame with
  | @ok s s' h =>
    have hspans : s'.spans = s.spans := by
      rw [h, funext Span.relocate_id, Array.map_id']
    have htable : s'.lines = s.lines := by
      rw [hlines, hlines', ofText_write_carriageReturn ht]
    cases s
    cases s'
    cases hspans
    cases htable
    rfl
  | @error e e' hcause hoffset =>
    rw [hlines.error_eq, hlines'.error_eq, hcause, hoffset, ofText_write_carriageReturn ht]
    rfl

theorem places_relocate {t : List Char} (ht : '\r' ∉ t) (s : Span) :
    (s.relocate id (pairOffset t)).places (.ofText (LineEnding.pair.write t)) =
      s.places (.ofText t) := by
  have hend : (LineTable.ofText (LineEnding.pair.write t)).length =
      pairOffset t (LineTable.ofText t).length := by
    rw [LineTable.length_ofText, LineTable.length_ofText, pairOffset_byteLength]
  have hget : ∀ o : Option Nat, (o.map (pairOffset t)).getD (pairOffset t (LineTable.ofText t).length) =
      pairOffset t (o.getD (LineTable.ofText t).length) := by
    intro o
    cases o <;> rfl
  simp only [Span.places, Span.relocate, hend, hget, List.map_cons, List.map_nil,
    LineTable.lineOf_pairOffset ht, LineTable.columnOf_pairOffset ht]

/-- **Pairs in place of line feeds move offsets, but change no line and no column.** -/
theorem scan_write_pair {t : List Char} (ht : '\r' ∉ t) :
    SamePlaces (pairOffset t) (scan t) (scan (LineEnding.pair.write t)) := by
  have hrelocates : Relocates (pairOffset t) 0 (Token.lex t) 0 (Token.lex (LineEnding.pair.write t)) := by
    refine relocates_lex_write ?_
    rintro a b rfl
    exact pairOffset_append a b
  have hlines := hasLinesOf_scan t
  have hlines' := hasLinesOf_scan (LineEnding.pair.write t)
  have hsame := hrelocates.scan
  generalize scan t = r at hlines hsame
  generalize scan (LineEnding.pair.write t) = r' at hlines' hsame
  cases hsame with
  | @ok s s' h =>
    refine .ok h ?_
    rw [hlines, hlines', h, Array.map_map]
    congr 1
    funext s
    exact places_relocate ht s
  | @error e e' hcause hoffset =>
    have he' : e' = { e with offset := pairOffset t e.offset } := by
      rw [hlines.error_eq, hlines'.error_eq, hcause, hoffset]
      simp only [ScanError.ofOffset, LineTable.lineOf_pairOffset ht, LineTable.columnOf_pairOffset ht]
    rw [he']
    exact .error e

/-- **Where things are does not depend on the line endings.** -/
theorem scan_lineEndings {t : List Char} (ht : '\r' ∉ t) :
    scan (LineEnding.carriageReturn.write t) = scan t ∧
      SamePlaces (pairOffset t) (scan t) (scan (LineEnding.pair.write t)) :=
  ⟨scan_write_carriageReturn ht, scan_write_pair ht⟩

/-- An unfinished tag on the second line. -/
theorem lineEndings_unfinished_tag :
    '\r' ∉ "<a>\n<b".toList ∧
      scan (LineEnding.carriageReturn.write "<a>\n<b".toList) = scan "<a>\n<b".toList ∧
      SamePlaces (pairOffset "<a>\n<b".toList) (.error ⟨.unterminatedElement, 4, 2, 1⟩)
        (.error ⟨.unterminatedElement, 5, 2, 1⟩) := by
  have ht : '\r' ∉ "<a>\n<b".toList := by decide
  obtain ⟨hreturn, hpair⟩ := scan_lineEndings ht
  have hscan : scan "<a>\n<b".toList = .error ⟨.unterminatedElement, 4, 2, 1⟩ := by cbv
  have hscan' : scan (LineEnding.pair.write "<a>\n<b".toList) =
      .error ⟨.unterminatedElement, 5, 2, 1⟩ := by cbv
  rw [hscan, hscan'] at hpair
  exact ⟨ht, hreturn, hpair⟩

end XmlLocate
