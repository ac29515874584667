import XmlLocate.Proofs.SteppingHeads

/-!
# Markup, one character at a time

From one text to the next the automaton goes through one token. `enter m o` is its state at the beginning
of what is opened with `o`; from there it gets to the end that the lexer finds with `Opening.split`
(`resume_body`, `resume_declaration`, `resume_startTag`, `resume_closeTag`), and the lemmas on the ends
say what it has recorded there.
-/

namespace XmlLocate

/-! ## Spans that are filled in later -/

theorem modify_eq_setIfInBounds {xs : Array Span} {i : Nat} {s : Span} (h : xs[i]? = some s)
    (f : Span → Span) : xs.modify i f = xs.setIfInBounds i (f s) := by
  apply Array.ext_getElem?
  intro j
  rw [Array.getElem?_modify, Array.getElem?_setIfInBounds]
  by_cases hij : i = j
  · subst hij
    have hi := (Array.getElem?_eq_some_iff.mp h).1
    rw [if_pos rfl, if_pos rfl, if_pos hi, h, Option.map_some]
  · rw [if_neg hij, if_neg hij]

theorem modify_push (xs : Array Span) (s : Span) (f : Span → Span) :
    (xs.push s).modify xs.size f = xs.push (f s) := by
  rw [modify_eq_setIfInBounds Array.getElem?_push_size]
  apply Array.ext'
  simp

namespace Machine

variable {m : Machine}

/-! ## Text -/

/-- The automaton when the run of text before the next character has ended. -/
def flush (m : Machine) : Machine :=
  if m.textStart < m.offset then m.push .text m.textStart (some m.offset) else m

theorem flush_of_not_lt (h : ¬ m.textStart < m.offset) : m.flush = m := if_neg h

theorem lines_flush (m : Machine) : m.flush.lines = m.lines := by
  unfold flush
  split_ifs <;> rfl

theorem opened_flush (m : Machine) : m.flush.opened = m.opened := by
  unfold flush
  split_ifs <;> rfl

theorem resume_text (hm : m.mode = .content) {x : List Char} (hlt : '<' ∉ x)
    (b : List Char) : m.run (x ++ b) = m.resume x b := by
  have hinert : ∀ c ∈ x, ∀ t, m.Inert c t := by
    intro c hc
    exact inert_content hm (ne_of_mem_of_not_mem hc hlt)
  rw [← resume_nil_left, resume_append_inert hinert, List.nil_append]

/-! ## Beginnings -/

/-- The automaton at the beginning of what is opened with `o`. -/
def enter (m : Machine) (o : Opening) : Machine :=
  let (kind, mode) := kindAndMode o
  if o = .closeTag then { m with markupStart := m.offset, mode }
  else
    { m with markupStart := m.offset, mode, depth := 0, current := some m.spans.size }.push
      kind m.offset none

theorem enter_of_ne {o : Opening} (ho : o ≠ .closeTag) (m : Machine) :
    m.enter o =
      { m with
        markupStart := m.offset
        mode := (kindAndMode o).2
        depth := 0
        current := some m.spans.size }.push (kindAndMode o).1 m.offset none := if_neg ho

theorem openMarkup_eq {o : Opening} {t : List Char} (ho : Opening.ofText t = o) (m : Machine) :
    m.openMarkup t = (m.flush.enter o).pass o.mark := by
  subst ho
  unfold openMarkup flush enter
  by_cases hlt : m.textStart < m.offset
  · simp only [if_pos hlt]
    split_ifs <;> rfl
  · simp only [if_neg hlt]
    split_ifs <;> rfl

theorem run_markup (hm : m.mode = .content) {o : Opening} {t : List Char}
    (ho : Opens o (o.mark ++ t)) : m.run (o.mark ++ t) = (m.flush.enter o).resume o.mark t := by
  obtain ⟨r, hr⟩ := exists_mark_eq o
  have hstep : m.stepChar '<' (r ++ t) = .ok ((m.flush.enter o).pass o.mark, t) := by
    have htext : '<' :: (r ++ t) = o.mark ++ t := by rw [hr, List.cons_append]
    simp only [stepChar, hm, if_true]
    rw [htext, openMarkup_eq (ofText_eq_of_opens ho), ofText_eq_of_opens ho, List.drop_left]
  have hmark : ¬ SplitsPair o.mark t := not_splitsPair_mark o [] t
  rw [hr, List.cons_append, ← resume_nil_left, resume_cons (by decide), pass_nil, hstep,
    resume_of_not_splitsPair (by rwa [hr] at hmark), hr]
  rfl

/-! ## Ends -/

theorem not_splitsPair_before_close (o : Opening) (u : List Char) : ¬ SplitsPair u o.close := by
  cases o <;> exact not_splitsPair_of_cons (by decide) u _

theorem resume_body {o : Opening} {x : Mode} (ho : bodyMode? o = some x) (m : Machine)
    (t : List Char) :
    (m.enter o).resume o.mark t =
      match o.split t with
      | some (b, c) => (((m.enter o).pass (o.mark ++ b)).endSpan o.close).run c
      | none => ((m.enter o).pass (o.mark ++ t)).finish := by
  have hmode : bodyMode? o = some (m.enter o).mode := by
    cases o <;> simp only [bodyMode?, reduceCtorEq] at ho <;> rfl
  have hsplit : o.split t = splitAround o.close t := by
    cases o <;> simp only [bodyMode?, reduceCtorEq] at ho <;> rfl
  rw [resume_splitAround (waitsFor_body hmode) (fun _ _ => not_isTerminator_of_close_prefix), hsplit]
  cases splitAround o.close t <;> rfl

theorem resume_declaration (m : Machine) (t : List Char) :
    (m.enter .declaration).resume Opening.declaration.mark t =
      match Opening.declaration.split t with
      | some (b, c) =>
        (((m.enter .declaration).pass (Opening.declaration.mark ++ b)).endSpan ['>']).run c
      | none =>
        .error (.ofOffset (m.lines.extend (Opening.declaration.mark ++ t)) m.offset
          .unterminatedDeclaration) := by
  have h : (m.enter .declaration).InDeclaration m.spans.size
      ⟨m.spans.size, .declaration, m.offset, none, none⟩ :=
    ⟨⟨rfl, Array.getElem?_push_size⟩, rfl, rfl⟩
  exact h.resume_splitDeclaration _ t

theorem resume_startTag (m : Machine) (t : List Char) :
    (m.enter .startTag).resume Opening.startTag.mark t =
      match Opening.startTag.split t with
      | some (b, c) => ((m.enter .startTag).endTag (Opening.startTag.mark ++ b)).run c
      | none =>
        .error (.ofOffset (m.lines.extend (Opening.startTag.mark ++ t)) m.offset
          .unterminatedElement) := by
  have h : (m.enter .startTag).InTag m.spans.size
      ⟨m.spans.size, .element, m.offset, none, none⟩ :=
    ⟨⟨rfl, Array.getElem?_push_size⟩, rfl, rfl, rfl⟩
  have hmark : Opening.startTag.mark.getLast? ≠ some '/' := by decide
  have hquote : ∀ q ∈ (none : Option Char), isQuote q := by simp
  exact h.resume_splitTag t hquote fun _ hl => absurd hl hmark

theorem resume_closeTag (m : Machine) (t : List Char) :
    (m.enter .closeTag).resume Opening.closeTag.mark t =
      match Opening.closeTag.split t with
      | some (b, c) =>
        ((m.enter .closeTag).pass (Opening.closeTag.mark ++ b)).endCloseTag >>= fun m' => m'.run c
      | none => ((m.enter .closeTag).pass (Opening.closeTag.mark ++ t)).finish := by
  refine resume_splitAround (waitsFor_closeTag rfl) ?_ _ t
  intro c t hp
  rw [singleton_prefix_iff.mp hp]
  decide

/-! ## What is recorded at an end -/

/-- The automaton in the text behind the markup `w`. -/
def behind (m : Machine) (w : List Char) : Machine :=
  { m with
    mode := .content
    textStart := m.offset + byteLength w
    markupStart := m.offset
    current := none
    lines := m.lines.extend w }

theorem behind_append {u v : List Char} (h : ¬ SplitsPair u v) (m : Machine) :
    m.behind (u ++ v) =
      { m with
        mode := .content
        textStart := ((m.lines.extend u).extend v).length
        markupStart := m.offset
        current := none
        lines := (m.lines.extend u).extend v } := by
  rw [behind, LineTable.extend_extend h]
  rfl

theorem endSpan_enter {o : Opening} (ho : o ≠ .closeTag) {u v : List Char} (h : ¬ SplitsPair u v)
    (m : Machine) :
    ((m.enter o).pass u).endSpan v =
      { m.behind (u ++ v) with
        depth := 0
        spans := m.spans.push ⟨m.spans.size, (kindAndMode o).1, m.offset, none,
          some (m.offset + byteLength (u ++ v))⟩ } := by
  rw [behind_append h, byteLength_append, ← Nat.add_assoc, enter_of_ne ho]
  unfold endSpan
  dsimp only [pass, push, modify, toContent, offset]
  rw [modify_push]
  rfl

theorem endEmptyTag_enter (m : Machine) (u : List Char) :
    ((m.enter .startTag).pass u).endEmptyTag =
      { m.behind (u ++ ['/', '>']) with
        depth := 0
        spans := m.spans.push ⟨m.spans.size, .element, m.offset,
          some (m.offset + byteLength (u ++ ['/', '>'])),
          some (m.offset + byteLength (u ++ ['/', '>']))⟩ } := by
  have h : ¬ SplitsPair u ['/', '>'] := not_splitsPair_of_cons (by decide) _ _
  rw [behind_append h, byteLength_append, ← Nat.add_assoc, enter_of_ne (by decide)]
  unfold endEmptyTag
  dsimp only [pass, push, modify, toContent, offset]
  rw [modify_push]
  rfl

theorem endHead_enter (m : Machine) (u : List Char) :
    ((m.enter .startTag).pass u).endHead =
      { m.behind (u ++ ['>']) with
        depth := 0
        opened := m.spans.size :: m.opened
        spans := m.spans.push ⟨m.spans.size, .element, m.offset,
          some (m.offset + byteLength (u ++ ['>'])), none⟩ } := by
  have h : ¬ SplitsPair u ['>'] := not_splitsPair_of_cons (by decide) _ _
  have hread : ((m.enter .startTag).pass u).Reads m.spans.size
      ⟨m.spans.size, .element, m.offset, none, none⟩ := ⟨rfl, Array.getElem?_push_size⟩
  rw [behind_append h, byteLength_append, ← Nat.add_assoc, endHead, if_pos hread.currentKind?,
    enter_of_ne (by decide)]
  dsimp only [pass, push, modify, toContent, offset]
  rw [modify_push]
  rfl

theorem endCloseTag_enter_of_nil (ho : m.opened = []) (u : List Char) :
    ((m.enter .closeTag).pass u).endCloseTag =
      .error (.ofOffset (m.lines.extend u) m.offset .unmatchedCloseTag) := by
  have ho' : ((m.enter .closeTag).pass u).opened = [] := ho
  rw [endCloseTag, ho']
  rfl

theorem endCloseTag_enter {i : Nat} {outer : List Nat} (ho : m.opened = i :: outer) (u : List Char) :
    ((m.enter .closeTag).pass u).endCloseTag =
      .ok { m.behind (u ++ ['>']) with
        opened := outer
        spans := m.spans.modify i
          ({ · with stop := some (m.offset + byteLength (u ++ ['>'])) }) } := by
  have h : ¬ SplitsPair u ['>'] := not_splitsPair_of_cons (by decide) _ _
  have ho' : ((m.enter .closeTag).pass u).opened = i :: outer := ho
  rw [behind_append h, byteLength_append, ← Nat.add_assoc, endCloseTag, ho']
  rfl

/-- The end of the text outside heads. -/
theorem finish_of_not_inHead (hx : m.mode.inHead = false) :
    m.finish =
      match m.opened with
      | [] =>
        if m.mode = .closeTag then .error (.ofOffset m.lines m.markupStart .unmatchedCloseTag)
        else .ok ⟨m.spans, m.lines⟩
      | i :: _ =>
        .error (.ofOffset m.lines ((m.spans[i]?.map Span.start).getD 0) .unterminatedElement) := by
  unfold finish
  cases hm : m.mode with
  | head | quoted | nestedComment | nestedInstruction => simp [hm, Mode.inHead] at hx
  | content | closeTag | comment | cdata | instruction => cases m.opened <;> rfl

end Machine

end XmlLocate
