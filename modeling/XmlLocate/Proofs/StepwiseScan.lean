import XmlLocate.Proofs.SteppingMarkup

/-!
# Scans that step and scans of tokens

**Theorem (`scanStepwise_eq`).** The automaton that reads one character at a time gives what the scan of
the tokens gives: the same spans and lines, or the same failure at the same place.

The proof is a simulation, token by token. Between two tokens the automaton is in text, has the lines and
the open elements of the assembly, and its spans but for the last run of text, whose span it records
when it meets the next `<` (`Sim`). `Follows` says that the two stay together over one token: both fail,
both go on, or both are at the end of the text. The automaton knows an open element by its rank only,
so its span must be found there (`Assembly.Holds`).
-/

namespace XmlLocate

/-! ## Open elements -/

namespace Assembly

variable {a b : Assembly}

/-- Each open element has its span where its rank says. -/
structure Holds (a : Assembly) : Prop where
  span : ∀ s ∈ a.opened, a.spans[s.sequence]? = some s
  distinct : (a.opened.map Span.sequence).Nodup

/-- All that a token can do to the spans and to the open elements. -/
theorem record_cases {k : Token} {stop : Nat} (h : a.record k stop = .ok b) :
    b = a ∨ (∃ s, b = a.push s) ∨
    (∃ s : Span, s.sequence = a.spans.size ∧ b = { a.push s with opened := s :: a.opened }) ∨
    ∃ s outer, a.opened = s :: outer ∧ b = a.pop s outer stop := by
  cases hf : k.form with
  | text =>
    simp only [record, hf, Except.ok.injEq] at h
    rw [← h]
    split_ifs
    · exact .inr (.inl ⟨_, rfl⟩)
    · exact .inl rfl
  | declaration =>
    simp only [record, hf] at h
    split_ifs at h
    exact .inr (.inl ⟨_, (Except.ok.inj h).symm⟩)
  | startTag =>
    simp only [record, hf] at h
    split_ifs at h
    exact .inr (.inr (.inl ⟨_, rfl, (Except.ok.inj h).symm⟩))
  | closeTag =>
    cases ho : a.opened with
    | nil => simp [record, hf, ho] at h
    | cons s outer =>
      simp only [record, hf, ho, Except.ok.injEq] at h
      rw [← h]
      split_ifs
      · exact .inr (.inr (.inr ⟨s, outer, rfl, rfl⟩))
      · exact .inl rfl
  | comment | cdata | instruction | emptyTag =>
    simp only [record, hf, Except.ok.injEq] at h
    exact .inr (.inl ⟨_, h.symm⟩)

theorem Holds.sequence_lt (h : a.Holds) {s : Span} (hs : s ∈ a.opened) :
    s.sequence < a.spans.size :=
  (Array.getElem?_eq_some_iff.mp (h.span s hs)).1

theorem Holds.getElem?_push (h : a.Holds) (s : Span) {s' : Span} (hs' : s' ∈ a.opened) :
    (a.spans.push s)[s'.sequence]? = some s' := by
  have hlt := h.sequence_lt hs'
  rw [Array.getElem?_push, if_neg (by omega)]
  exact h.span s' hs'

theorem Holds.push (h : a.Holds) (s : Span) : (a.push s).Holds :=
  ⟨fun _ hs' => h.getElem?_push s hs', h.distinct⟩

theorem Holds.open (h : a.Holds) {s : Span} (hs : s.sequence = a.spans.size) :
    ({ a.push s with opened := s :: a.opened } : Assembly).Holds := by
  constructor
  · intro s' hs'
    rcases List.mem_cons.mp hs' with rfl | hs'
    · rw [hs]
      exact Array.getElem?_push_size
    · exact h.getElem?_push s hs'
  · refine List.nodup_cons.mpr ⟨?_, h.distinct⟩
    intro hmem
    obtain ⟨s', hs', heq⟩ := List.mem_map.mp hmem
    have := h.sequence_lt hs'
    omega

theorem Holds.pop (h : a.Holds) {s : Span} {outer : List Span} (ho : a.opened = s :: outer)
    (stop : Nat) : (a.pop s outer stop).Holds := by
  have hspan := h.span
  have hdistinct := h.distinct
  rw [ho] at hspan hdistinct
  obtain ⟨hnot, hdistinct⟩ := List.nodup_cons.mp hdistinct
  refine ⟨?_, hdistinct⟩
  intro s' hs'
  have hne : s.sequence ≠ s'.sequence := fun heq => hnot (List.mem_map.mpr ⟨s', hs', heq.symm⟩)
  show (a.spans.setIfInBounds s.sequence _)[s'.sequence]? = some s'
  rw [Array.getElem?_setIfInBounds_ne hne]
  exact hspan s' (List.mem_cons_of_mem _ hs')

theorem Holds.step (h : a.Holds) {k : Token} (hk : a.step k = .ok b) : b.Holds := by
  obtain ⟨b', hrecord, hb⟩ := bind_eq_ok hk
  obtain rfl := Except.ok.inj hb
  -- The lines do not matter.
  have hlines : b'.Holds → ({ b' with lines := b'.lines.extend k.text } : Assembly).Holds :=
    fun h => ⟨h.span, h.distinct⟩
  apply hlines
  rcases record_cases hrecord with rfl | ⟨s, rfl⟩ | ⟨s, hs, rfl⟩ | ⟨s, outer, ho, rfl⟩
  · exact h
  · exact h.push s
  · exact h.open hs
  · exact h.pop ho _

end Assembly

/-! ## Agreement -/

/-- The automaton and the assembly know the same. -/
structure Agrees (a : Assembly) (m : Machine) : Prop where
  spans : m.spans = a.spans
  opened : m.opened = a.opened.map Span.sequence
  lines : m.lines = a.lines

/-! ## Simulation -/

/-- Before the rest `t` of a text, at the beginning of a token, the automaton does what the assembly
does. -/
structure Sim (a : Assembly) (m : Machine) (t : List Char) : Prop where
  agrees : Agrees a m.flush
  mode : m.mode = .content
  textStart_le : m.textStart ≤ m.offset
  /-- A run of text ends at a `<`. -/
  begins : m.textStart < m.offset → ['<'] <+: t

/-- The automaton and the assembly stay together over the token `k`, behind which is `rest`. -/
inductive Follows (a : Assembly) (m : Machine) (t : List Char) (k : Token) (rest : List Char) : Prop
  | fails {e : ScanError} : a.step k = .error e → m.run t = .error e → Follows a m t k rest
  | goesOn {b : Assembly} {m' : Machine} : a.step k = .ok b → m.run t = m'.run rest →
      Sim b m' rest → Follows a m t k rest
  | ends {b : Assembly} : a.step k = .ok b → rest = [] → m.run t = b.finish → Follows a m t k rest

variable {a : Assembly} {m : Machine} {t : List Char}

theorem Sim.of_agrees (h : Agrees a m) (hm : m.mode = .content) (hstart : m.textStart = m.offset) :
    Sim a m t := by
  have hnot : ¬ m.textStart < m.offset := by omega
  refine ⟨?_, hm, by omega, fun hlt => absurd hlt hnot⟩
  rwa [Machine.flush_of_not_lt hnot]

theorem Agrees.finish_eq (h : Agrees a m) (ha : a.Holds)
    (hm : m.mode = .closeTag → a.opened ≠ []) (hhead : m.mode.inHead = false) :
    m.finish = a.finish := by
  rw [Machine.finish_of_not_inHead hhead, Assembly.finish, h.opened, h.spans, h.lines]
  cases ho : a.opened with
  | nil => exact if_neg fun hc => hm hc ho
  | cons s outer =>
    have hs : a.spans[s.sequence]? = some s := ha.span s (by simp [ho])
    rw [List.map_cons]
    dsimp only
    rw [hs]
    rfl

theorem Agrees.pass (h : Agrees a m) (u : List Char) :
    Agrees { a with lines := a.lines.extend u } (m.pass u) :=
  ⟨h.spans, h.opened, congrArg (·.extend u) h.lines⟩

theorem Agrees.offset (h : Agrees a m) : m.offset = a.offset := congrArg LineTable.length h.lines

/-- Both record a span, made from its rank and its offset. -/
theorem Agrees.push {n : Machine} (h : Agrees a n) (span : Nat → Nat → Span) (u : List Char)
    (hspans : m.spans = n.spans.push (span n.spans.size n.offset)) (hopened : m.opened = n.opened)
    (hlines : m.lines = n.lines.extend u) :
    Agrees
      { a with
        spans := a.spans.push (span a.spans.size a.offset)
        lines := a.lines.extend u } m := by
  refine ⟨?_, hopened.trans h.opened, ?_⟩
  · rw [hspans, h.spans, h.offset]
  · rw [hlines, h.lines]

theorem Agrees.ofOffset_eq (h : Agrees a m) (u : List Char) (cause : ScanError.Cause) :
    ScanError.ofOffset (m.lines.extend u) m.offset cause = .ofOffset a.lines a.offset cause := by
  rw [h.lines, h.offset, Assembly.ofOffset_offset]

/-! ## Text -/

/-- What begins otherwise than with a `<` follows no run of text. -/
theorem Sim.agrees_of_not_begins (h : Sim a m t) (ht : ¬ ['<'] <+: t) :
    Agrees a m ∧ m.textStart = m.offset := by
  have hnot : ¬ m.textStart < m.offset := fun hlt => ht (h.begins hlt)
  have hagrees := h.agrees
  rw [Machine.flush_of_not_lt hnot] at hagrees
  refine ⟨hagrees, ?_⟩
  have := h.textStart_le
  omega

theorem Sim.follows_text {x b : List Char} (h : Sim a m (x ++ b)) (ha : a.Holds) (hx : x ≠ [])
    (hlt : '<' ∉ x) (hb : b = [] ∨ ['<'] <+: b) :
    Follows a m (x ++ b) ⟨.text, x, !b.isEmpty⟩ b := by
  have hnot : ¬ ['<'] <+: x ++ b := by
    obtain ⟨c, x, rfl⟩ := List.exists_cons_of_ne_nil hx
    rw [List.cons_append, Machine.singleton_prefix_iff]
    rintro rfl
    exact hlt List.mem_cons_self
  obtain ⟨hagrees, hstart⟩ := h.agrees_of_not_begins hnot
  have hpass := hagrees.pass x
  have hrun := Machine.resume_text h.mode hlt b
  have hmode : (m.pass x).mode = .content := h.mode
  rcases hb with rfl | ⟨b, rfl⟩
  · have hstep : a.step ⟨.text, x, false⟩ = .ok { a with lines := a.lines.extend x } := rfl
    refine .ends hstep rfl ?_
    rw [hrun, Machine.resume_nil_right]
    refine hpass.finish_eq (ha.step hstep) ?_ (by rw [hmode]; rfl)
    intro hc
    exact absurd (hmode.symm.trans hc) (by simp)
  · have hoffset := hagrees.offset
    have hpos := byteLength_pos hx
    have hpending : (m.pass x).textStart < (m.pass x).offset := by
      show m.textStart < m.offset + byteLength x
      omega
    have hstep : a.step ⟨.text, x, true⟩ = .ok
        { a.push (a.span .text none (some (a.offset + byteLength x))) with
          lines := a.lines.extend x } := rfl
    refine .goesOn hstep
      (hrun.trans (Machine.resume_of_not_splitsPair (not_splitsPair_of_cons (by decide) _ _)))
      ⟨⟨?_, ?_, ?_⟩, hmode, Nat.le_of_lt hpending, fun _ => List.prefix_append _ _⟩
    · rw [Machine.flush, if_pos hpending]
      show m.spans.push ⟨m.spans.size, .text, m.textStart, none, some (m.offset + byteLength x)⟩ = _
      rw [hagrees.spans, hstart, hoffset]
      rfl
    · rw [Machine.opened_flush]
      exact hpass.opened
    · rw [Machine.lines_flush]
      exact hpass.lines

/-! ## Markup -/

/-- The automaton and the assembly stay together over markup that was opened with `o`, whether it has
an end or not. -/
structure FollowsMarkup (a : Assembly) (m : Machine) (o : Opening) (t : List Char) : Prop where
  complete : ∀ b rest, o.split t = some (b, rest) →
    Follows a m (o.mark ++ t) ⟨o.form b, o.mark ++ b ++ o.close, true⟩ rest
  unfinished : o.split t = none → Follows a m (o.mark ++ t) ⟨o.form [], o.mark ++ t, false⟩ []

variable {n : Machine}

/-- The end of a construct that is no tag. -/
theorem Agrees.follows_construct (h : Agrees a n) {o : Opening} (ho : o ≠ .closeTag)
    (ho' : o ≠ .startTag) {b rest : List Char}
    (hrun : m.run t = (((n.enter o).pass (o.mark ++ b)).endSpan o.close).run rest) :
    Follows a m t ⟨o.form b, o.mark ++ b ++ o.close, true⟩ rest := by
  have hstep : a.step ⟨o.form b, o.mark ++ b ++ o.close, true⟩ = .ok
      { a with
        spans := a.spans.push ⟨a.spans.size, (Machine.kindAndMode o).1, a.offset, none,
          some (a.offset + byteLength (o.mark ++ b ++ o.close))⟩
        lines := a.lines.extend (o.mark ++ b ++ o.close) } := by
    cases o <;> first | rfl | contradiction
  rw [Machine.endSpan_enter ho (Machine.not_splitsPair_before_close o _)] at hrun
  let span (i start : Nat) : Span :=
    ⟨i, (Machine.kindAndMode o).1, start, none, some (start + byteLength (o.mark ++ b ++ o.close))⟩
  exact .goesOn hstep hrun (Sim.of_agrees (h.push span _ rfl rfl rfl) rfl rfl)

theorem Agrees.follows_body (h : Agrees a n) (ha : a.Holds) {o : Opening} {x : Mode}
    (ho : Machine.bodyMode? o = some x)
    (hrun : m.run (o.mark ++ t) = (n.enter o).resume o.mark t) : FollowsMarkup a m o t := by
  have hclose : o ≠ .closeTag := by rintro rfl; exact absurd ho (by simp [Machine.bodyMode?])
  have hstart : o ≠ .startTag := by rintro rfl; exact absurd ho (by simp [Machine.bodyMode?])
  rw [Machine.resume_body ho] at hrun
  constructor
  · intro b rest hs
    rw [hs] at hrun
    exact h.follows_construct hclose hstart hrun
  · intro hs
    rw [hs] at hrun
    let span (i start : Nat) : Span := ⟨i, (Machine.kindAndMode o).1, start, none, none⟩
    let b : Assembly :=
      { a with spans := a.spans.push (span a.spans.size a.offset), lines := a.lines.extend (o.mark ++ t) }
    have hstep : a.step ⟨o.form [], o.mark ++ t, false⟩ = .ok b := by
      cases o <;> simp only [Machine.bodyMode?, reduceCtorEq] at ho <;> rfl
    have hagrees : Agrees b ((n.enter o).pass (o.mark ++ t)) := by
      rw [Machine.enter_of_ne hclose]
      exact h.push span (o.mark ++ t) rfl rfl rfl
    have hmode : ((n.enter o).pass (o.mark ++ t)).mode = x := by
      cases o <;> simp only [Machine.bodyMode?, reduceCtorEq, Option.some.injEq] at ho <;> exact ho
    refine .ends hstep rfl (hrun.trans (hagrees.finish_eq (ha.step hstep) ?_ ?_))
    · rw [hmode]
      cases o <;> simp [Machine.bodyMode?] at ho <;> simp [← ho]
    · rw [hmode]
      cases o <;> simp [Machine.bodyMode?] at ho <;> simp [← ho, Mode.inHead]

theorem Agrees.follows_declaration (h : Agrees a n)
    (hrun : m.run (Opening.declaration.mark ++ t) =
      (n.enter .declaration).resume Opening.declaration.mark t) :
    FollowsMarkup a m .declaration t := by
  rw [Machine.resume_declaration] at hrun
  constructor
  · intro b rest hs
    rw [hs] at hrun
    exact h.follows_construct (by decide) (by decide) hrun
  · intro hs
    rw [hs] at hrun
    refine .fails (Assembly.step_declaration_unfinished rfl rfl a) (hrun.trans ?_)
    exact congrArg Except.error (h.ofOffset_eq _ _)

/-- The end of a start tag behind a `/`, which ends its element as well. -/
theorem Agrees.follows_emptyTag (h : Agrees a n) {b rest : List Char}
    (hrun : m.run t = ((n.enter .startTag).pass (Opening.startTag.mark ++ b)).endEmptyTag.run rest) :
    Follows a m t ⟨Opening.startTag.form (b ++ ['/']),
      Opening.startTag.mark ++ (b ++ ['/']) ++ Opening.startTag.close, true⟩ rest := by
  have htext : Opening.startTag.mark ++ (b ++ ['/']) ++ Opening.startTag.close =
      Opening.startTag.mark ++ b ++ ['/', '>'] := by simp [Opening.close]
  have hform : Opening.startTag.form (b ++ ['/']) = .emptyTag := if_pos (by simp)
  rw [Machine.endEmptyTag_enter] at hrun
  rw [hform, htext]
  let span (i start : Nat) : Span :=
    let stop := start + byteLength (Opening.startTag.mark ++ b ++ ['/', '>'])
    ⟨i, .element, start, some stop, some stop⟩
  exact .goesOn rfl hrun (Sim.of_agrees (h.push span _ rfl rfl rfl) rfl rfl)

theorem Agrees.follows_start (h : Agrees a n) {b rest : List Char} (hb : b.getLast? ≠ some '/')
    (hrun : m.run t = ((n.enter .startTag).pass (Opening.startTag.mark ++ b)).endHead.run rest) :
    Follows a m t ⟨Opening.startTag.form b, Opening.startTag.mark ++ b ++ Opening.startTag.close,
      true⟩ rest := by
  have hform : Opening.startTag.form b = .startTag := if_neg hb
  rw [Machine.endHead_enter] at hrun
  rw [hform]
  refine .goesOn (Assembly.step_of_isStart rfl a) hrun (Sim.of_agrees ⟨?_, ?_, ?_⟩ rfl rfl)
  · show n.spans.push _ = a.spans.push _
    rw [h.spans, h.offset]
    rfl
  · show n.spans.size :: n.opened = a.spans.size :: a.opened.map Span.sequence
    rw [h.spans, h.opened]
  · exact congrArg (·.extend (Opening.startTag.mark ++ b ++ ['>'])) h.lines

theorem Agrees.follows_startTag (h : Agrees a n)
    (hrun : m.run (Opening.startTag.mark ++ t) =
      (n.enter .startTag).resume Opening.startTag.mark t) : FollowsMarkup a m .startTag t := by
  rw [Machine.resume_startTag] at hrun
  constructor
  · intro b rest hs
    rw [hs] at hrun
    dsimp only at hrun
    by_cases hslash : b.getLast? = some '/'
    · obtain ⟨b, rfl⟩ := List.getLast?_eq_some_iff.mp hslash
      rw [← List.append_assoc, Machine.endTag_concat] at hrun
      exact h.follows_emptyTag hrun
    · have hlast : (Opening.startTag.mark ++ b).getLast? ≠ some '/' := by
        intro hl
        cases b with
        | nil => exact absurd hl (by decide)
        | cons c b => exact hslash (by rwa [List.getLast?_append_of_ne_nil _ (by simp)] at hl)
      rw [Machine.endTag, if_neg hlast] at hrun
      exact h.follows_start hslash hrun
  · intro hs
    rw [hs] at hrun
    refine .fails (Assembly.step_startTag_unfinished rfl rfl a) (hrun.trans ?_)
    exact congrArg Except.error (h.ofOffset_eq _ _)

theorem Agrees.follows_closeTag (h : Agrees a n) (ha : a.Holds)
    (hrun : m.run (Opening.closeTag.mark ++ t) =
      (n.enter .closeTag).resume Opening.closeTag.mark t) : FollowsMarkup a m .closeTag t := by
  rw [Machine.resume_closeTag] at hrun
  constructor
  · intro b rest hs
    rw [hs] at hrun
    dsimp only at hrun
    have hopened := h.opened
    cases ho : a.opened with
    | nil =>
      rw [ho, List.map_nil] at hopened
      rw [Machine.endCloseTag_enter_of_nil hopened] at hrun
      refine .fails (Assembly.step_closeTag_of_nil rfl ho) (hrun.trans ?_)
      exact congrArg Except.error (h.ofOffset_eq _ _)
    | cons s outer =>
      have hspan : n.spans[s.sequence]? = some s := by
        rw [h.spans]
        exact ha.span s (by simp [ho])
      rw [ho, List.map_cons] at hopened
      rw [Machine.endCloseTag_enter hopened] at hrun
      refine .goesOn (Assembly.step_of_isClose rfl ho) hrun (Sim.of_agrees ⟨?_, rfl, ?_⟩ rfl rfl)
      · dsimp only
        rw [modify_eq_setIfInBounds hspan, h.spans, h.offset]
        rfl
      · exact congrArg (·.extend (Opening.closeTag.mark ++ b ++ ['>'])) h.lines
  · intro hs
    rw [hs] at hrun
    dsimp only at hrun
    have henter : Agrees a (n.enter .closeTag) := ⟨h.spans, h.opened, h.lines⟩
    have hpass := henter.pass (Opening.closeTag.mark ++ t)
    by_cases ho : a.opened = []
    · have hopened : ((n.enter .closeTag).pass (Opening.closeTag.mark ++ t)).opened = [] := by
        rw [hpass.opened, ho]
        rfl
      refine .fails (Assembly.step_closeTag_of_nil rfl ho) (hrun.trans ?_)
      rw [Machine.finish_of_not_inHead rfl, hopened]
      exact congrArg Except.error (h.ofOffset_eq _ _)
    · have hstep : a.step ⟨.closeTag, Opening.closeTag.mark ++ t, false⟩ =
          .ok { a with lines := a.lines.extend (Opening.closeTag.mark ++ t) } :=
        Assembly.step_closeTag_unfinished rfl rfl ho
      exact .ends hstep rfl (hrun.trans (hpass.finish_eq (ha.step hstep) (fun _ => ho) rfl))

theorem Sim.followsMarkup {o : Opening} (h : Sim a m (o.mark ++ t)) (ha : a.Holds)
    (ho : Opens o (o.mark ++ t)) : FollowsMarkup a m o t := by
  have hrun := Machine.run_markup h.mode ho
  cases o with
  | closeTag => exact h.agrees.follows_closeTag ha hrun
  | declaration => exact h.agrees.follows_declaration hrun
  | startTag => exact h.agrees.follows_startTag hrun
  | comment | cdata | instruction => exact h.agrees.follows_body ha rfl hrun

/-- What one token does. -/
theorem Sim.follows {k : Token} {rest : List Char} (h : Sim a m t) (ha : a.Holds)
    (hk : Token.Heads t k rest) : Follows a m t k rest := by
  cases hk with
  | run hx hlt hb => exact h.follows_text ha hx hlt hb
  | @markup o t b _ hopens hends =>
    exact (h.followsMarkup ha hopens).complete _ _ (split_eq_some_iff.mpr hends)
  | @unfinished o t hopens hends =>
    refine (h.followsMarkup ha hopens).unfinished ?_
    rw [Option.eq_none_iff_forall_ne_some]
    exact fun p hp => hends p.1 p.2 (split_eq_some_iff.mp hp)

/-- What all tokens do. -/
theorem Sim.run_eq {ks : List Token} (h : Sim a m t) (ha : a.Holds) (ht : Token.Tokenises t ks) :
    m.run t = ks.foldlM Assembly.step a >>= Assembly.finish := by
  induction ht generalizing a m with
  | nil =>
    obtain ⟨hagrees, -⟩ := h.agrees_of_not_begins (by simp)
    rw [Machine.run_nil]
    refine hagrees.finish_eq ha ?_ (by rw [h.mode]; rfl)
    intro hc
    exact absurd (h.mode.symm.trans hc) (by simp)
  | cons hk hks ih =>
    rw [List.foldlM_cons]
    cases h.follows ha hk with
    | fails hstep hrun =>
      rw [hstep, hrun]
      rfl
    | goesOn hstep hrun h =>
      rw [hstep, hrun]
      exact ih h (ha.step hstep)
    | ends hstep hrest hrun =>
      subst hrest
      cases hks with
      | nil =>
        rw [hstep, hrun]
        rfl
      | cons hk' => exact absurd rfl hk'.ne_nil

theorem scanStepwise_eq (source : List Char) : scanStepwise source = scan source := by
  have h : Sim .empty .empty source := Sim.of_agrees ⟨rfl, rfl, rfl⟩ rfl rfl
  exact h.run_eq ⟨by simp [Assembly.empty], by simp [Assembly.empty]⟩ (Token.tokenises_iff.mpr rfl)

end XmlLocate
