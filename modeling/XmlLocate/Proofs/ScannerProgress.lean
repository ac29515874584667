import XmlLocate.Proofs.BytewiseScan
import XmlLocate.Proofs.LineJumps

/-!
# Progress of a scan of bytes

**Theorem (`scanner_progress`).** Whatever the bytes are, each turn of a scan gets on and stays within
them, so that the scan ends, and no slice and no index is out of range on the way.

Every access is checked when it is made, so that one out of range would show as `Fault.broken`. `Gives`
says that none does, and what holds of the result. Each function of the scanner has one lemma of that
form. They ask for a state in which all indexes of spans are in range (`Indexed`) and the lines so far
make a table (`Lined`). That holds in every state in which a turn begins: the first by `Consistent`, the
second as what a turn records are lines behind those before (`Records`).
-/

namespace XmlLocate

/-! ## Results -/

/-- No access was out of range, and the result, if there is one, has the property. -/
def Gives {α : Type} (P : α → Prop) (x : Except Fault α) : Prop :=
  x ≠ .error .broken ∧ ∀ a, x = .ok a → P a

section

variable {α β : Type} {P : α → Prop} {Q : β → Prop} {x : Except Fault α} {f : α → Except Fault β}

theorem gives_ok {a : α} (h : P a) : Gives P (.ok a) :=
  ⟨by simp, fun _ ha => Except.ok.inj ha ▸ h⟩

theorem gives_failure (e : ScanError) : Gives P (.error (.failure e)) :=
  ⟨by simp, by simp⟩

theorem gives_require {o : Option α} {a : α} (h : o = some a) : Gives (· = a) (Fault.require o) :=
  h ▸ gives_ok rfl

theorem Gives.mono (hx : Gives P x) {P' : α → Prop} (h : ∀ a, P a → P' a) : Gives P' x :=
  ⟨hx.1, fun a ha => h a (hx.2 a ha)⟩

/-- What comes second may use how the first came out. -/
theorem Gives.bind (hx : Gives P x) (hf : ∀ a, x = .ok a → P a → Gives Q (f a)) :
    Gives Q (x >>= f) := by
  cases x with
  | error e =>
    refine ⟨fun h => hx.1 ?_, fun b hb => by cases hb⟩
    rw [show e = .broken from Except.error.inj h]
  | ok a => exact hf a rfl (hx.2 a rfl)

/-- A result, or a failure of the text. -/
theorem Gives.cases (hx : Gives P x) : (∃ a, x = .ok a ∧ P a) ∨ ∃ e, x = .error (.failure e) := by
  cases x with
  | error e =>
    cases e with
    | failure e => exact .inr ⟨e, rfl⟩
    | broken => exact absurd rfl hx.1
  | ok a => exact .inl ⟨a, rfl, hx.2 a rfl⟩

end

namespace Scanner

variable {bytes : List UInt8} {σ σ' : Scanner}

/-! ## States -/

/-- The indexes that a scanner holds are those of spans. -/
structure Indexed (σ : Scanner) : Prop where
  current_lt : ∀ i, σ.current = some i → i < σ.spans.size
  opened_lt : ∀ i, some i ∈ σ.opened.entries → i < σ.spans.size

theorem Consistent.indexed (h : Consistent bytes σ) : σ.Indexed := by
  obtain ⟨opened, hopened, hrecorded⟩ := h.recorded
  constructor
  · intro i hi
    have := hrecorded.current_last i hi
    omega
  · intro i hi
    rw [hopened] at hi
    exact hrecorded.lt_size_of_mem (by simpa [OpenStack.of] using hi)

/-- The lines so far make a table, and none of them begins behind `pos`. -/
structure Lined (σ : Scanner) : Prop where
  increasing : σ.lineStarts.toList.Pairwise (· < ·)
  le_pos : ∀ p ∈ σ.lineStarts, p ≤ σ.pos

theorem lined_empty : empty.Lined where
  increasing := List.pairwise_singleton _ _
  le_pos := by simp [empty]

/-- What was recorded in between are lines that begin behind `σ`. -/
def Records (σ σ' : Scanner) : Prop :=
  ∃ lines : List Nat, σ'.lineStarts = σ.lineStarts ++ lines ∧ lines.Pairwise (· < ·) ∧
    ∀ p ∈ lines, σ.pos < p ∧ p ≤ σ'.pos

theorem records_of_eq (h : σ'.lineStarts = σ.lineStarts) : Records σ σ' :=
  ⟨[], by rw [h, Array.appendList_nil], .nil, by simp⟩

theorem gives_records {x : Except Fault Scanner}
    (hx : Gives (fun σ' => σ'.lineStarts = σ.lineStarts) x) : Gives (Records σ) x :=
  hx.mono fun _ => records_of_eq

theorem Lined.records (h : σ.Lined) (hpos : σ.pos ≤ σ'.pos) (hrecords : Records σ σ') : σ'.Lined := by
  obtain ⟨lines, hlines, hsorted, hmem⟩ := hrecords
  constructor
  · rw [hlines, Array.toList_appendList]
    refine List.pairwise_append.mpr ⟨h.increasing, hsorted, ?_⟩
    intro p hp q hq
    exact Nat.lt_of_le_of_lt (h.le_pos p (Array.mem_toList_iff.mp hp)) (hmem q hq).1
  · intro p hp
    rw [← Array.mem_toList_iff, hlines, Array.toList_appendList, List.mem_append] at hp
    rcases hp with hp | hp
    · exact (h.le_pos p (Array.mem_toList_iff.mp hp)).trans hpos
    · exact (hmem p hp).2

/-! ## Accesses -/

theorem gives_currentKind? (h : σ.Indexed) : Gives (fun _ => True) σ.currentKind? := by
  unfold currentKind?
  split
  next => exact gives_ok trivial
  next i hi =>
    have hs := Array.getElem?_eq_getElem (h.current_lt i hi)
    exact (gives_require hs).bind fun _ _ _ => gives_ok trivial

theorem lookahead_eq (h : σ.pos ≤ bytes.length) (t : List Char) :
    σ.lookahead bytes t = .ok ((asciiBytes t).isPrefixOf (bytes.drop σ.pos)) := by
  unfold lookahead
  rw [bytesFrom?_eq_some.mpr ⟨h, rfl⟩]
  rfl

theorem gives_lookahead (h : σ.pos ≤ bytes.length) (t : List Char) :
    Gives (fun _ => True) (σ.lookahead bytes t) :=
  lookahead_eq h t ▸ gives_ok trivial

theorem gives_modifySpan {i : Nat} (hi : i < σ.spans.size) (f : Span → Span) :
    Gives (fun σ' => σ'.lineStarts = σ.lineStarts) (σ.modifySpan i f) :=
  (gives_require (Array.getElem?_eq_getElem hi)).bind fun _ _ _ => gives_ok rfl

theorem gives_table (h : σ.Lined) (hpos : σ.pos ≤ bytes.length) :
    Gives (fun _ => True) (σ.table bytes) := by
  have hrepairable : LineTable.Repairable σ.lineStarts.toList bytes.length := by
    refine ⟨h.increasing, ?_⟩
    intro last hlast
    exact (h.le_pos last (Array.mem_toList_iff.mp (List.mem_of_getLast? hlast))).trans hpos
  unfold table
  cases hmade : LineTable.ofStarts? σ.lineStarts.toList bytes.length with
  | error e => exact absurd hrepairable (LineTable.ofStarts?_eq_error_iff.mp hmade).not_repairable
  | ok l => exact gives_ok trivial

theorem gives_fail {α : Type} {P : α → Prop} (h : σ.Lined) (hpos : σ.pos ≤ bytes.length)
    (offset : Nat) (cause : ScanError.Cause) : Gives P (σ.fail bytes offset cause) :=
  (gives_table h hpos).bind fun _ _ _ => gives_failure _

/-! ## Markup -/

theorem gives_beginMarkup (hlt : σ.pos < bytes.length) :
    Gives (fun σ' => σ'.lineStarts = σ.lineStarts) (σ.beginMarkup bytes) := by
  have htext : σ.endText.lineStarts = σ.lineStarts := by
    unfold endText
    split <;> rfl
  refine (gives_require (bytesFrom?_eq_some.mpr ⟨hlt, rfl⟩)).bind ?_
  intro rest _ _
  dsimp only
  split
  · exact gives_ok htext
  · exact gives_ok htext

theorem gives_endSpan (h : σ.Indexed) (n : Nat) (f : Nat → Span → Span) :
    Gives (fun σ' => σ'.lineStarts = σ.lineStarts) (σ.endSpan n f) := by
  unfold endSpan
  split
  next i hi =>
    refine (gives_modifySpan ?_ _).mono fun _ hlines => hlines
    exact h.current_lt i hi
  next => exact gives_ok rfl

theorem gives_endHead (h : σ.Indexed) :
    Gives (fun σ' => σ'.lineStarts = σ.lineStarts) σ.endHead := by
  refine (gives_currentKind? h).bind ?_
  intro kind _ _
  split
  · refine (gives_endSpan h 1 _).bind ?_
    intro behind _ hbehind
    split
    · exact gives_ok hbehind
    · exact gives_ok hbehind
  · exact gives_endSpan h 1 _

theorem mem_entries_of_pop {s outer : OpenStack} {i : Nat} (h : s.pop = (some i, outer)) :
    some i ∈ s.entries := by
  unfold OpenStack.pop at h
  split at h
  · cases h
  · obtain ⟨hhead, -⟩ := Prod.mk.inj h
    exact List.mem_of_mem_head? (Option.join_eq_some_iff.mp hhead)

theorem gives_endCloseTag (h : σ.Indexed) (hlined : σ.Lined) (hlt : σ.pos < bytes.length) :
    Gives (fun σ' => σ'.lineStarts = σ.lineStarts) (σ.endCloseTag bytes) := by
  have hlined' : (σ.advance 1).Lined := hlined.records (Nat.le_succ _) (records_of_eq rfl)
  unfold endCloseTag
  dsimp only
  split
  next => exact gives_fail hlined' hlt _ _
  next i outer hpop =>
    refine (gives_modifySpan ?_ _).mono fun _ hlines => hlines
    exact h.opened_lt i (mem_entries_of_pop hpop)

/-! ## Turns -/

theorem gives_skipBlock {o : Opening} (ho : o = .comment ∨ o = .instruction)
    (hmark : σ.lookahead bytes o.mark = .ok true) : Gives (Records σ) (σ.skipBlock bytes o) := by
  obtain ⟨target, hskip, hjump⟩ := exists_jumpsTo ho hmark
  obtain ⟨lineStarts, hlands, -, lines, hlines, hsorted, hmem⟩ := hjump.lands
  rw [hskip, hlands]
  refine gives_ok ⟨lines, hlines, hsorted, ?_⟩
  intro p hp
  obtain ⟨hlt, hle, -⟩ := (hmem p).mp hp
  exact ⟨hlt, hle⟩

theorem gives_skipSubsetMarkup (hle : σ.pos ≤ bytes.length) :
    Gives (Records σ) (σ.skipSubsetMarkup bytes) := by
  refine (gives_lookahead hle _).bind ?_
  intro comment hcomment _
  split
  next htrue => exact gives_skipBlock (.inl rfl) (htrue ▸ hcomment)
  next =>
    refine (gives_lookahead hle _).bind ?_
    intro instruction hinstruction _
    split
    next htrue => exact gives_skipBlock (.inr rfl) (htrue ▸ hinstruction)
    next => exact gives_ok (records_of_eq rfl)

theorem gives_stepHead (h : σ.Indexed) (hlt : σ.pos < bytes.length) (b : UInt8) :
    Gives (Records σ) (σ.stepHead bytes b) := by
  refine (gives_currentKind? h).bind ?_
  intro kind _ _
  split_ifs
  · exact gives_ok (records_of_eq rfl)
  · exact gives_ok (records_of_eq rfl)
  · exact gives_records (gives_endSpan h 2 _)
  · exact gives_ok (records_of_eq rfl)
  · exact gives_ok (records_of_eq rfl)
  · exact gives_skipSubsetMarkup hlt.le
  · exact gives_records (gives_endHead h)
  · exact gives_ok (records_of_eq rfl)

theorem gives_stepTo (h : σ.Indexed) (hlt : σ.pos < bytes.length) (o : Opening) :
    Gives (Records σ) (σ.stepTo bytes o) := by
  refine (gives_lookahead hlt.le _).bind ?_
  intro found _ _
  split
  · exact gives_records (gives_endSpan h _ _)
  · exact gives_ok (records_of_eq rfl)

theorem gives_step (h : σ.Indexed) (hlined : σ.Lined) (hlt : σ.pos < bytes.length) (b : UInt8) :
    Gives (Records σ) (σ.step bytes b) := by
  have hpass : Gives (Records σ) (.ok (σ.advance 1)) := gives_ok (records_of_eq rfl)
  unfold step
  split
  next =>
    split
    · exact gives_records (gives_beginMarkup hlt)
    · exact hpass
  next => exact gives_stepHead h hlt b
  next =>
    split
    · exact gives_records (gives_endCloseTag h hlined hlt)
    · exact hpass
  next =>
    refine gives_ok (records_of_eq ?_)
    split <;> rfl
  next =>
    refine gives_ok (records_of_eq ?_)
    split <;> rfl
  next => exact gives_stepTo h hlt .comment
  next => exact gives_stepTo h hlt .cdata
  next => exact gives_stepTo h hlt .instruction

/-- **A turn stays in range,** and the lines that it records begin behind those before. -/
theorem gives_react (h : σ.Indexed) (hlined : σ.Lined) (hlt : σ.pos < bytes.length) :
    Gives (Records σ) (σ.react bytes) := by
  refine (gives_require (List.getElem?_eq_getElem hlt)).bind ?_
  intro b _ _
  split
  · refine gives_ok ⟨[lineBehind bytes σ.pos b], ?_, List.pairwise_singleton _ _, ?_⟩
    · apply Array.ext'
      simp
    · intro p hp
      obtain rfl := List.mem_singleton.mp hp
      exact ⟨lt_lineBehind bytes σ.pos b, Nat.le_refl _⟩
  · exact gives_step h hlined hlt b

/-- Within the bytes there is a next byte that matters, or the end. -/
theorem exists_skipInert (hle : σ.pos ≤ bytes.length) :
    ∃ σ₁ more, σ.skipInert bytes = .ok (σ₁, more) ∧ (more = true → σ₁.pos < bytes.length) := by
  unfold skipInert
  rw [bytesFrom?_eq_some.mpr ⟨hle, rfl⟩, require_some_bind]
  split
  · refine ⟨σ, _, rfl, fun hmore => ?_⟩
    by_contra hend
    rw [List.drop_eq_nil_of_le (Nat.le_of_not_lt hend)] at hmore
    cases hmore
  · split
    next skip hskip =>
      have hlt := (List.findIdx?_eq_some_iff_findIdx_eq.mp hskip).1
      rw [List.length_drop] at hlt
      refine ⟨σ.advance skip, true, rfl, fun _ => ?_⟩
      show σ.pos + skip < bytes.length
      omega
    next => exact ⟨{ σ with pos := bytes.length }, false, rfl, fun hmore => by cases hmore⟩

theorem gives_finish (h : σ.Indexed) (hlined : σ.Lined) (hle : σ.pos ≤ bytes.length) :
    Gives (fun _ => True) (σ.finish bytes) := by
  have hinHead : ∀ i, (if σ.state.inHead then σ.current else none) = some i → i < σ.spans.size := by
    intro i hi
    split at hi
    · exact h.current_lt i hi
    · cases hi
  unfold finish
  dsimp only
  split
  · exact gives_fail hlined hle _ _
  refine (gives_table hlined hle).bind ?_
  intro lines _ _
  split
  next i hi =>
    have hs := Array.getElem?_eq_getElem (hinHead i hi)
    exact (gives_require hs).bind fun _ _ _ => gives_fail hlined hle _ _
  next i _ hpeek =>
    have hi : i < σ.spans.size := by
      refine h.opened_lt i ?_
      exact List.mem_of_mem_head? (Option.join_eq_some_iff.mp hpeek)
    exact (gives_require (Array.getElem?_eq_getElem hi)).bind fun _ _ _ =>
      gives_fail hlined hle _ _
  next => exact gives_ok trivial

/-! ## Runs -/

theorem Lined.skipInert (h : σ.Lined) {more : Bool} (hskip : σ.skipInert bytes = .ok (σ', more)) :
    σ'.Lined := by
  obtain ⟨-, pos, hpos, -, rfl, -⟩ := skipInert_eq_ok hskip
  exact h.records hpos (records_of_eq rfl)

theorem Reachable.lined (h : Reachable bytes σ) : σ.Lined := by
  induction h with
  | empty => exact lined_empty
  | @turn σ σ₁ σ₂ hreachable hskip hreact ih =>
    have hindexed := (hreachable.consistent.skipInert hskip).indexed
    have hlined := ih.skipInert hskip
    obtain ⟨hlt, hle⟩ := (turn_of_react hreact).pos_lt
    exact hlined.records hlt.le
      ((gives_react hindexed hlined (Nat.lt_of_lt_of_le hlt hle)).2 σ₂ hreact)

/-- A turn leads from one state to the other. -/
def Leads (bytes : List UInt8) (σ σ' : Scanner) : Prop :=
  ∃ σ₁, σ.skipInert bytes = .ok (σ₁, true) ∧ σ₁.react bytes = .ok σ'

/-- **A turn gets on** and stays within the bytes. -/
theorem Leads.pos_lt (h : Leads bytes σ σ') : σ.pos < σ'.pos ∧ σ'.pos ≤ bytes.length := by
  obtain ⟨σ₁, hskip, hreact⟩ := h
  obtain ⟨-, pos, hpos, -, rfl, -⟩ := skipInert_eq_ok hskip
  obtain ⟨hlt, hle⟩ := (turn_of_react hreact).pos_lt
  exact ⟨Nat.lt_of_le_of_lt hpos hlt, hle⟩

/-- No turns follow each other without end. -/
theorem wellFounded_leads (bytes : List UInt8) : WellFounded fun σ' σ => Leads bytes σ σ' := by
  refine Subrelation.wf (fun {σ' σ} h => ?_) (measure fun σ : Scanner => bytes.length - σ.pos).wf
  obtain ⟨hlt, hle⟩ := h.pos_lt
  show bytes.length - σ'.pos < bytes.length - σ.pos
  omega

/-- What comes of a state in which a turn begins: the scanner gets on, the scan fails, or it is at its
end. In each case the indexes that can be looked up are those of spans, and no access is out of range. -/
inductive Proceeds (bytes : List UInt8) (σ : Scanner) : Prop where
  | turn {σ₁ σ₂ : Scanner} (hskip : σ.skipInert bytes = .ok (σ₁, true)) (hindexed : σ₁.Indexed)
      (hlt : σ₁.pos < bytes.length) (hreact : σ₁.react bytes = .ok σ₂)
      (hpos : σ.pos < σ₂.pos ∧ σ₂.pos ≤ bytes.length)
  | failure {σ₁ : Scanner} {e : ScanError} (hskip : σ.skipInert bytes = .ok (σ₁, true))
      (hindexed : σ₁.Indexed) (hlt : σ₁.pos < bytes.length)
      (hreact : σ₁.react bytes = .error (.failure e))
  | finish {σ₁ : Scanner} (hskip : σ.skipInert bytes = .ok (σ₁, false)) (hindexed : σ₁.Indexed)
      (hfinish : σ₁.finish bytes ≠ .error .broken)

theorem Reachable.proceeds (h : Reachable bytes σ) : σ.Proceeds bytes := by
  obtain ⟨σ₁, more, hskip, hmore⟩ := exists_skipInert h.consistent.pos_le
  have hconsistent := h.consistent.skipInert hskip
  have hlined := h.lined.skipInert hskip
  cases more with
  | false =>
    have hfinish := gives_finish hconsistent.indexed hlined hconsistent.pos_le
    exact .finish hskip hconsistent.indexed hfinish.1
  | true =>
    have hlt := hmore rfl
    obtain ⟨σ₂, hreact, -⟩ | ⟨e, hreact⟩ := (gives_react hconsistent.indexed hlined hlt).cases
    · exact .turn hskip hconsistent.indexed hlt hreact (Leads.pos_lt ⟨σ₁, hskip, hreact⟩)
    · exact .failure hskip hconsistent.indexed hlt hreact

/-- The rest of a scan stays in range, by induction on the turns that follow. -/
theorem Reachable.run_ne_broken (h : Reachable bytes σ) : σ.run bytes ≠ .error .broken := by
  induction σ using (wellFounded_leads bytes).induction with
  | _ σ ih =>
    cases h.proceeds with
    | turn hskip _ _ hreact =>
      rw [run_of_turn hskip hreact]
      exact ih _ ⟨_, hskip, hreact⟩ (h.turn hskip hreact)
    | @failure σ₁ e hskip _ _ hreact =>
      rw [Scanner.run_eq, hskip]
      show σ₁.react bytes >>= _ ≠ _
      rw [hreact]
      exact fun h => by cases h
    | finish hskip _ hfinish =>
      rw [Scanner.run_eq, hskip]
      exact hfinish

/-- What a mark opens between brackets is passed by a jump. -/
theorem skipSubsetMarkup_eq {o : Opening} (ho : o = .comment ∨ o = .instruction)
    (hmark : σ.lookahead bytes o.mark = .ok true) :
    σ.skipSubsetMarkup bytes = σ.skipBlock bytes o := by
  unfold skipSubsetMarkup
  rcases ho with rfl | rfl
  · rw [hmark]
    rfl
  · obtain ⟨hinstruction, hle⟩ := lookahead_eq_true hmark
    have hcomment : ¬ asciiBytes Opening.comment.mark <+: bytes.drop σ.pos := fun h =>
      absurd (List.prefix_of_prefix_length_le hinstruction h (by decide)) (by decide)
    rw [← List.isPrefixOf_iff_prefix, Bool.not_eq_true] at hcomment
    rw [lookahead_eq (Nat.le_of_add_right_le hle), hcomment]
    show (σ.lookahead bytes Opening.instruction.mark >>= fun found => _) = _
    rw [hmark]
    rfl

end Scanner

/-- **A scan gets on and stays in range.** A scan of a text is one of its bytes. Whatever the bytes are,
turns end, no access is out of range, and what is passed in one jump is in range and recorded. -/
theorem scanner_progress :
    (∀ source, scanBytes (textBytes source) = (scan source).mapError .failure) ∧
      ∀ bytes : List UInt8,
        (WellFounded fun σ' σ => Scanner.Leads bytes σ σ') ∧ scanBytes bytes ≠ .error .broken ∧
        (∀ σ, Scanner.Reachable bytes σ → σ.Proceeds bytes) ∧
        ∀ (σ : Scanner) (o : Opening), o = .comment ∨ o = .instruction →
          σ.lookahead bytes o.mark = .ok true →
          ∃ target, σ.skipSubsetMarkup bytes = σ.skipTo bytes target ∧ σ.JumpsTo bytes target := by
  refine ⟨scanBytes_textBytes, fun bytes => ⟨Scanner.wellFounded_leads bytes,
    Scanner.Reachable.empty.run_ne_broken, fun _ h => h.proceeds, ?_⟩⟩
  intro σ o ho hmark
  rw [Scanner.skipSubsetMarkup_eq ho hmark]
  exact Scanner.exists_jumpsTo ho hmark

/-- A comment of two lines, between the brackets of a declaration. -/
theorem scanner_progress_over_lines :
    let bytes := textBytes "<![<!--\r\n-->".toList
    let σ : Scanner :=
      ⟨3, .head, 0, 0, some 0, 1, .of [], #[⟨0, .declaration, 0, none, none⟩], #[0]⟩
    Scanner.Reachable bytes σ ∧ σ.Proceeds bytes ∧
      σ.lookahead bytes Opening.comment.mark = .ok true ∧
      ∃ target, σ.skipSubsetMarkup bytes = σ.skipTo bytes target ∧ σ.JumpsTo bytes target := by
  intro bytes σ
  have h₁ : Scanner.Reachable bytes
      ⟨2, .head, 0, 0, some 0, 0, .of [], #[⟨0, .declaration, 0, none, none⟩], #[0]⟩ :=
    .turn .empty rfl rfl
  have h₂ : Scanner.Reachable bytes σ := .turn h₁ rfl rfl
  have hmark : σ.lookahead bytes Opening.comment.mark = .ok true := rfl
  obtain ⟨-, -, hproceeds, hjumps⟩ := scanner_progress.2 bytes
  exact ⟨h₂, hproceeds σ h₂, hmark, hjumps σ .comment (.inl rfl) hmark⟩

end XmlLocate
