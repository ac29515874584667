import XmlLocate.Proofs.BytewiseScan
import XmlLocate.Proofs.Verdict

/-!
# The lines of a scan

**Theorem (`scan_lines`).** On success a scan gives the line table of the text. On failure it gives an
offset of the text, and the line and column that this table has for it.

The table of the text is made in one go, those of the scans in pieces: token by token, step by step, or
with jumps that look for line terminators on their own. A scan of bytes keeps the starts of the lines and
makes a table of them at its end or where it fails. At an unmatched close tag only a part of the table is
there. That part is enough (`answers_scan`), and the place is in the text because every token takes some
bytes (`EndsIn.offset_lt`).
-/

namespace XmlLocate

/-- What a scan of the text says of its lines is right. -/
def HasLinesOf (source : List Char) : Except ScanError Scan → Prop
  | .ok s => s.lines = .ofText source
  | .error e =>
    e.offset < byteLength source ∧
      e.line = (LineTable.ofText source).lineOf e.offset + 1 ∧
      e.column = (LineTable.ofText source).columnOf e.offset + 1

theorem Token.Tokenises.length_pos {t : List Char} {ks : List Token} (h : Tokenises t ks) :
    ∀ k ∈ ks, 0 < k.length := by
  induction h with
  | nil => simp
  | cons hk _ ih =>
    intro j hj
    rcases List.mem_cons.mp hj with rfl | hj
    · exact byteLength_pos hk.text_ne_nil
    · exact ih j hj

/-- The place of a failure is the beginning of a token. -/
theorem EndsIn.offset_lt {ks : List Token} {e : Ending} (h : EndsIn ks e)
    (hpos : ∀ k ∈ ks, 0 < k.length) {cause : ScanError.Cause} {offset : Nat}
    (he : e.failure? = some (cause, offset)) : offset < lengthOf ks := by
  have key : ∀ {before behind : List Token} {k : Token}, before ++ k :: behind = ks →
      lengthOf before < lengthOf ks := by
    rintro before behind k rfl
    have := hpos k (by simp)
    rw [lengthOf_append, lengthOf_cons]
    omega
  cases h with
  | unmatched | inUnmatched | inDeclaration | inHead =>
    obtain ⟨-, rfl⟩ := Prod.mk.inj (Option.some.inj he)
    exact key rfl
  | inElement h =>
    obtain ⟨-, rfl⟩ := Prod.mk.inj (Option.some.inj he)
    cases h with
    | start => exact key rfl
  | inCloseTag h =>
    obtain ⟨-, rfl⟩ := Prod.mk.inj (Option.some.inj he)
    cases h with
    | start => exact key (by rw [List.append_assoc, List.cons_append])
  | settled => simp [Ending.failure?] at he

theorem hasLinesOf_scan (source : List Char) : HasLinesOf source (scan source) := by
  have htokens := Token.tokenises_iff.mpr (rfl : Token.lex source = _)
  have hends := (endsIn_iff (settled_lex source)).mpr rfl
  have hanswers := answers_scan source
  unfold Answers at hanswers
  cases hfail : (endingFrom [] 0 (Token.lex source)).failure? with
  | none =>
    rw [hfail] at hanswers
    obtain ⟨s, hs⟩ := hanswers
    rw [hs, (scan_eq_ok_iff.mp hs).2]
    exact htokens.linesAfter_eq .empty
  | some p =>
    obtain ⟨cause, offset⟩ := p
    rw [hfail] at hanswers
    dsimp only at hanswers
    have hlt := hends.offset_lt htokens.length_pos hfail
    rw [lengthOf_lex] at hlt
    rw [hanswers]
    exact ⟨hlt, rfl, rfl⟩

/-- **The lines of a scan are those of the text**, for each of the three scans of characters and for the
scan of bytes. -/
theorem scan_lines (source : List Char) :
    HasLinesOf source (scan source) ∧ HasLinesOf source (scanStepwise source) ∧
      HasLinesOf source (scanSkipping source) ∧
      ∃ r, scanBytes (textBytes source) = r.mapError .failure ∧ HasLinesOf source r := by
  have h := hasLinesOf_scan source
  refine ⟨h, ?_, ?_, scan source, scanBytes_textBytes source, h⟩
  · rwa [scanStepwise_eq]
  · rwa [scanSkipping_eq, scanStepwise_eq]

end XmlLocate
