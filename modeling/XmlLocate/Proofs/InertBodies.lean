import XmlLocate.Proofs.Lockstep
import XmlLocate.Proofs.RelocatedRuns
import XmlLocate.Proofs.SkippingScan

/-!
# Bodies do not matter

What stands in a comment, a CDATA section, a processing instruction or a quoted string is not looked at,
but for the delimiter that ends it.

**Theorem (`scan_inert`).** Where a text comes to such a body, another body in its place changes nothing
in the scan but the offsets behind it.

Up to the body the two texts are one, and no step looks further ahead than the character that begins the
construct (`step_append`), so both scans reach one state there. Each then passes its body in one go
(`run_hidden`), which leaves states that differ in offsets alone, and from such states scans differ in
offsets alone (`Machine.Relocated.run`).

The state must be that of the automaton, which knows when it is in a block within the brackets of a
declaration. A scan that passes blocks in one go takes the end of an unfinished one for a place in the
declaration, and for that place the theorem would be wrong (`not_inert_in_unfinished_block`).
-/

namespace XmlLocate

/-! ## Steps look no further than the next construct -/

/-- What may begin a construct. No mark holds it but at its beginning, and no delimiter holds it behind
its beginning. -/
def IsOpener (x : Char) : Prop := x = '<' ∨ isQuote x

namespace IsOpener

variable {x : Char}

theorem ne (hx : IsOpener x) : x ≠ '\n' ∧ x ≠ '>' := by
  rcases hx with rfl | hq
  · decide
  · constructor
    · rintro rfl
      exact absurd hq (by decide)
    · rintro rfl
      exact absurd hq (by decide)

theorem notMem_tail {m : List Char} (hx : IsOpener x) (hm : '<' ∉ m ∧ '\'' ∉ m ∧ '"' ∉ m) : x ∉ m := by
  rcases hx with rfl | hq
  · exact hm.1
  · have hq : x = '\'' ∨ x = '"' := by simpa [isQuote] using hq
    rcases hq with rfl | rfl
    · exact hm.2.1
    · exact hm.2.2

theorem notMem_mark (hx : IsOpener x) (o : Opening) : x ∉ o.mark.tail :=
  hx.notMem_tail (by cases o <;> decide)

theorem notMem_close (hx : IsOpener x) (o : Opening) : x ∉ o.close.tail :=
  hx.notMem_tail (by cases o <;> decide)

end IsOpener

theorem prefix_append_cons_iff {m t r : List Char} {c x : Char} (hx : x ∉ m.tail) :
    m <+: c :: (t ++ x :: r) ↔ m <+: c :: t := by
  cases m with
  | nil => exact iff_of_true List.nil_prefix List.nil_prefix
  | cons d m =>
    rw [List.cons_prefix_cons, List.cons_prefix_cons]
    refine and_congr_right fun _ => ⟨prefix_of_notMem hx, ?_⟩
    intro hp
    exact hp.trans (List.prefix_append _ _)

theorem Opening.ofText_append {x : Char} (hx : IsOpener x) (c : Char) (t r : List Char) :
    ofText (c :: (t ++ x :: r)) = ofText (c :: t) := by
  unfold ofText
  simp only [List.isPrefixOf_iff_prefix, prefix_append_cons_iff (hx.notMem_mark _)]

namespace Machine

variable {m : Machine} {x c : Char} {t : List Char}

/-- A state, and a text that is left to read, with more behind it. -/
def withRest (r : List Char) (p : Machine × List Char) : Machine × List Char := (p.1, p.2 ++ r)

theorem drop_append_of_prefix {mark : List Char} (hp : mark <+: t) (r : List Char) :
    (t ++ r).drop mark.length = t.drop mark.length ++ r :=
  List.drop_append_of_le_length hp.length_le

/-- Whether a delimiter comes next is seen without what begins at an opening. -/
theorem atClose_append (hx : IsOpener x) (o : Opening) (c : Char) (t r : List Char) (m m' : Machine) :
    (if o.close <+: c :: (t ++ x :: r) then (m, (c :: (t ++ x :: r)).drop o.close.length)
      else (m', t ++ x :: r)) =
      withRest (x :: r) (if o.close <+: c :: t then (m, (c :: t).drop o.close.length) else (m', t)) := by
  by_cases hp : o.close <+: c :: t
  · rw [if_pos hp, if_pos ((prefix_append_cons_iff (hx.notMem_close o)).mpr hp), withRest,
      ← drop_append_of_prefix hp, List.cons_append]
  · rw [if_neg hp, if_neg (mt (prefix_append_cons_iff (hx.notMem_close o)).mp hp)]
    rfl

theorem stepTo_append (hx : IsOpener x) (m : Machine) (o : Opening) (c : Char) (t r : List Char) :
    m.stepTo o c (t ++ x :: r) = withRest (x :: r) (m.stepTo o c t) :=
  atClose_append hx o c t r _ _

theorem stepNested_append (hx : IsOpener x) (m : Machine) (o : Opening) (c : Char) (t r : List Char) :
    m.stepNested o c (t ++ x :: r) = withRest (x :: r) (m.stepNested o c t) :=
  atClose_append hx o c t r _ _

theorem stepHead_append (hx : IsOpener x) (m : Machine) (c : Char) (t r : List Char) :
    m.stepHead c (t ++ x :: r) = withRest (x :: r) (m.stepHead c t) := by
  have hhead : (t ++ x :: r).head? = some '>' ↔ t.head? = some '>' := by
    cases t with
    | nil => simp [hx.ne.2]
    | cons d t => rfl
  unfold stepHead
  simp only [hhead, prefix_append_cons_iff (hx.notMem_mark _)]
  split_ifs with hq hempty hbracket hend hcomment hinstruction
  · rfl
  · obtain ⟨-, -, hgt⟩ := hempty
    obtain ⟨t, rfl⟩ := List.head?_eq_some_iff.mp hgt
    rfl
  · rfl
  · rfl
  · obtain ⟨u, hu⟩ := hcomment.2
    obtain ⟨-, rfl⟩ := List.cons.inj hu
    rfl
  · obtain ⟨u, hu⟩ := hinstruction.2
    obtain ⟨-, rfl⟩ := List.cons.inj hu
    rfl
  · rfl

theorem stepChar_append (hx : IsOpener x) (m : Machine) (c : Char) (t r : List Char) :
    m.stepChar c (t ++ x :: r) = withRest (x :: r) <$> m.stepChar c t := by
  unfold stepChar
  cases m.mode with
  | content =>
    dsimp only
    split_ifs with hlt
    · subst hlt
      have hdrop := drop_append_of_prefix (Opening.mark_prefix_ofText t) (x :: r)
      rw [List.cons_append] at hdrop
      rw [openMarkup_eq (Opening.ofText_append hx '<' t r), openMarkup_eq rfl,
        Opening.ofText_append hx, hdrop]
      rfl
    · rfl
  | closeTag =>
    dsimp only
    split_ifs
    · cases m.endCloseTag <;> rfl
    · rfl
  | head => exact congrArg Except.ok (stepHead_append hx m c t r)
  | quoted q => rfl
  | nestedComment => exact congrArg Except.ok (stepNested_append hx m .comment c t r)
  | nestedInstruction => exact congrArg Except.ok (stepNested_append hx m .instruction c t r)
  | comment => exact congrArg Except.ok (stepTo_append hx m .comment c t r)
  | cdata => exact congrArg Except.ok (stepTo_append hx m .cdata c t r)
  | instruction => exact congrArg Except.ok (stepTo_append hx m .instruction c t r)

/-- **A step does not look at what begins at an opening.** -/
theorem step_append (hx : IsOpener x) (m : Machine) (c : Char) (t r : List Char) :
    m.step (c :: (t ++ x :: r)) = withRest (x :: r) <$> m.step (c :: t) := by
  have hpair : SplitsPair [c] (t ++ x :: r) ↔ SplitsPair [c] t := by
    cases t with
    | nil => simp [SplitsPair, hx.ne.1]
    | cons d t => rfl
  by_cases h : SplitsPair [c] t
  · obtain rfl : c = '\r' := by simpa using h.1
    obtain ⟨t, rfl⟩ := List.head?_eq_some_iff.mp h.2
    rfl
  · rw [step_eq h, step_eq (mt hpair.mp h)]
    split_ifs
    · rfl
    · exact stepChar_append hx m c t r

/-- **A run goes on at an opening from the state that is reached there.** -/
theorem run_append {m' : Machine} {p : List Char} (hx : IsOpener x) (h : m.read p = .ok m')
    (r : List Char) : m.run (p ++ x :: r) = m'.run (x :: r) := by
  fun_induction read m p with
  | case1 m =>
    obtain rfl := Except.ok.inj h
    rfl
  | case2 m c t e hs => exact absurd h (by simp)
  | case3 m c t m₁ rest hs _ ih =>
    rw [List.cons_append, run_cons, step_append hx, hs]
    exact ih h

/-! ## Bodies are passed in one go -/

/-- The constructs whose bodies are not looked at. -/
def bodyOpenings : List Opening := [.comment, .cdata, .instruction]

/-- In the state `m` what stands between `left` and `right` is not looked at: in content the body of a
comment, a CDATA section or a processing instruction; in a tag or a declaration a quoted string; and
within the brackets of a declaration a comment or a processing instruction. -/
inductive Hides (m : Machine) : List Char → List Char → Prop
  | body {o : Opening} : m.mode = .content → o ∈ bodyOpenings → Hides m o.mark o.close
  | quotes {q : Char} : m.mode = .head → isQuote q → Hides m [q] [q]
  | block {o : Opening} : m.mode = .head → 0 < m.depth → o ∈ nestedOpenings → Hides m o.mark o.close

theorem Hides.exists_cons {left right : List Char} (h : m.Hides left right) :
    ∃ x s, left = x :: s ∧ IsOpener x := by
  cases h with
  | @body o =>
    obtain ⟨s, hs⟩ := exists_mark_eq o
    exact ⟨'<', s, hs, .inl rfl⟩
  | @quotes q _ hq => exact ⟨q, [], rfl, .inr hq⟩
  | @block o =>
    obtain ⟨s, hs⟩ := exists_mark_eq o
    exact ⟨'<', s, hs, .inl rfl⟩

theorem splitAround_close {o : Opening} {b : List Char} (hb : ¬ o.close <:+: b) (r : List Char) :
    splitAround o.close (b ++ o.close ++ r) = some (b, r) := by
  rw [splitAround_eq_some_iff (List.length_pos_iff.mp o.length_close_pos)]
  obtain ⟨p, hp, hgt⟩ : ∃ p, o.close = p ++ ['>'] ∧ '>' ∉ p := by
    cases o with
    | comment => exact ⟨['-', '-'], rfl, by decide⟩
    | cdata => exact ⟨[']', ']'], rfl, by decide⟩
    | instruction => exact ⟨['?'], rfl, by decide⟩
    | closeTag | declaration | startTag => exact ⟨[], rfl, by decide⟩
  rw [hp] at hb ⊢
  exact firstAt_of_not_infix hgt hb

theorem splitAround_quote {q : Char} {b : List Char} (hb : ¬ [q] <:+: b) (r : List Char) :
    splitAround [q] (b ++ [q] ++ r) = some (b, r) := by
  rw [List.singleton_infix_iff] at hb
  rw [splitAround_eq_some_iff (by simp), firstAt_singleton]
  exact ⟨rfl, hb⟩

theorem run_quotes (hm : m.mode = .head) {q : Char} (hq : isQuote q) {b : List Char}
    (hb : ¬ [q] <:+: b) (r : List Char) :
    m.run ([q] ++ b ++ [q] ++ r) = (m.pass ([q] ++ b ++ [q])).run r := by
  have hsplit : ¬ SplitsPair ([q] ++ b ++ [q]) r :=
    (not_splitsPair_of_not_isTerminator (not_isTerminator_of_isQuote hq) _ r).2
  have h := resume_quoted hm hq [] (b ++ [q] ++ r)
  rw [splitAround_quote hb] at h
  rw [← resume_of_not_splitsPair hsplit]
  simpa using h

theorem run_block (hm : m.mode = .head) (hdepth : 0 < m.depth) {o : Opening}
    (ho : o ∈ nestedOpenings) {b : List Char} (hb : ¬ o.close <:+: b) (r : List Char) :
    m.run (o.mark ++ b ++ o.close ++ r) = (m.pass (o.mark ++ b ++ o.close)).run r := by
  obtain ⟨y, hy⟩ : ∃ y, blockMode? o = some y := by
    cases o <;> simp [nestedOpenings, blockMode?] at ho ⊢
  have h := resume_block hm hdepth hy [] (b ++ o.close ++ r)
  rw [splitAround_close hb] at h
  rw [← resume_of_not_splitsPair (not_splitsPair_close o _ r)]
  simpa using h

theorem endSpan_pass {u v : List Char} (h : ¬ SplitsPair u v) (m : Machine) :
    (m.pass u).endSpan v = (m.pass (u ++ v)).endSpan [] := by
  rw [endSpan, endSpan, pass_nil, pass_pass h]

theorem run_body (hm : m.mode = .content) {o : Opening} (ho : o ∈ bodyOpenings) {b : List Char}
    (hb : ¬ o.close <:+: b) (r : List Char) :
    m.run (o.mark ++ b ++ o.close ++ r) =
      (((m.flush.enter o).pass (o.mark ++ b ++ o.close)).endSpan []).run r := by
  obtain ⟨y, hy⟩ : ∃ y, bodyMode? o = some y := by
    cases o <;> simp [bodyOpenings, bodyMode?] at ho ⊢
  have hopens : Opens o (o.mark ++ (b ++ o.close ++ r)) := by
    cases o <;> simp only [bodyMode?, reduceCtorEq] at hy <;> exact List.prefix_append _ _
  have hsplit : o.split (b ++ o.close ++ r) = some (b, r) := by
    rw [← splitAround_close hb r]
    cases o <;> simp only [bodyMode?, reduceCtorEq] at hy <;> rfl
  have h := resume_body hy m.flush (b ++ o.close ++ r)
  rw [hsplit, ← run_markup hm hopens] at h
  rw [← endSpan_pass (not_splitsPair_before_close o _)]
  simpa using h

theorem offset_flush_enter (m : Machine) (o : Opening) : (m.flush.enter o).offset = m.offset := by
  have henter : (m.flush.enter o).offset = m.flush.offset := by cases o <;> rfl
  rw [henter, offset, lines_flush, offset]

/-- **Behind hidden bodies runs differ in offsets alone.** -/
theorem Hides.run {left right b b' r : List Char} (h : m.Hides left right) {f : Nat → Nat} {stop : Nat}
    (hm : Relocated f stop [] m m) (hb : ¬ right <:+: b) (hb' : ¬ right <:+: b')
    (hf : ∀ n ≤ byteLength r, f (m.offset + byteLength (left ++ b ++ right) + n) =
      m.offset + byteLength (left ++ b' ++ right) + n) :
    SameUpTo f (SameSpans f) (m.run (left ++ b ++ right ++ r)) (m.run (left ++ b' ++ right ++ r)) := by
  have hpos : ∀ u v : List Char, 0 < byteLength (left ++ u ++ v) := by
    obtain ⟨x, s, rfl, -⟩ := h.exists_cons
    intro u v
    exact byteLength_pos (by simp)
  have hlengths : left ++ b ++ right = left ++ b' ++ right ∨
      0 < byteLength (left ++ b ++ right) ∧ 0 < byteLength (left ++ b' ++ right) :=
    .inr ⟨hpos b right, hpos b' right⟩
  cases h with
  | @body o hmode ho =>
    rw [run_body hmode ho hb, run_body hmode ho hb']
    have hjump := (hm.flush.enter o).jump hlengths (r := r) (by simpa only [offset_flush_enter] using hf)
    exact (Relocated.endSpan (u := []) hjump).run
  | quotes hmode hq =>
    rw [run_quotes hmode hq hb, run_quotes hmode hq hb']
    exact (hm.jump hlengths hf).run
  | block hmode hdepth ho =>
    rw [run_block hmode hdepth ho hb, run_block hmode hdepth ho hb']
    exact (hm.jump hlengths hf).run

end Machine

/-! ## Scans -/

/-- From `stop` on offsets move to `stop'`. -/
def shift (stop stop' offset : Nat) : Nat := if offset < stop then offset else offset - stop + stop'

theorem shift_of_lt {stop stop' offset : Nat} (h : offset < stop) : shift stop stop' offset = offset :=
  if_pos h

theorem shift_add (stop stop' n : Nat) : shift stop stop' (stop + n) = stop' + n := by
  rw [shift, if_neg (by omega)]
  omega

/-- **Bodies do not matter.** -/
theorem scan_inert {p q b b' left right : List Char} {m : Machine} (hp : Machine.empty.read p = .ok m)
    (h : m.Hides left right) (hb : ¬ right <:+: b) (hb' : ¬ right <:+: b') :
    SameUpTo (shift (byteLength (p ++ left ++ b ++ right)) (byteLength (p ++ left ++ b' ++ right)))
      (SameSpans (shift (byteLength (p ++ left ++ b ++ right)) (byteLength (p ++ left ++ b' ++ right))))
      (scan (p ++ left ++ b ++ right ++ q)) (scan (p ++ left ++ b' ++ right ++ q)) := by
  generalize hf : shift (byteLength (p ++ left ++ b ++ right)) (byteLength (p ++ left ++ b' ++ right)) = f
  obtain ⟨x, s, hleft, hx⟩ := h.exists_cons
  have hlt : byteLength p < byteLength (p ++ left ++ b ++ right) := by
    have := byteLength_pos (t := left) (by simp [hleft])
    simp only [byteLength_append]
    omega
  -- All that is recorded in front of the body lies before it, so the state is related to itself.
  have hfix : ∀ n ≤ byteLength p, f n = n := by
    intro n hn
    rw [← hf]
    exact shift_of_lt (by omega)
  have hread := (Machine.Relocated.empty hfix).read
  rw [hp] at hread
  cases hread with
  | ok hm =>
    have hoffset : m.offset = byteLength p := hm.stop_eq
    have hafter : ∀ n ≤ byteLength q, f (m.offset + byteLength (left ++ b ++ right) + n) =
        m.offset + byteLength (left ++ b' ++ right) + n := by
      intro n _
      have := shift_add (byteLength (p ++ left ++ b ++ right)) (byteLength (p ++ left ++ b' ++ right)) n
      rw [hoffset, ← byteLength_append, ← byteLength_append, ← hf]
      simpa using this
    have hrun := h.run hm hb hb' hafter
    have hsource : ∀ u, scan (p ++ left ++ u ++ right ++ q) = m.run (left ++ u ++ right ++ q) := by
      intro u
      have happend : p ++ left ++ u ++ right ++ q = p ++ x :: (s ++ u ++ right ++ q) := by simp [hleft]
      rw [← scanStepwise_eq, scanStepwise, happend, Machine.run_append hx hp, hleft]
      simp
    rwa [hsource, hsource]

/-- What would end a tag, and what would begin one, in a quoted value. -/
theorem inert_in_quotes :
    SameUpTo (shift 11 12) (SameSpans (shift 11 12))
      (scan ("<a><b c=".toList ++ ['"'] ++ ">".toList ++ ['"'] ++ "/></a>".toList))
      (scan ("<a><b c=".toList ++ ['"'] ++ "</".toList ++ ['"'] ++ "/></a>".toList)) := by
  have hread : Machine.empty.read "<a><b c=".toList = .ok ⟨.head, 3, 3, some 1, 0, [0],
      #[⟨0, .element, 0, some 3, none⟩, ⟨1, .element, 3, none, none⟩], .ofText "<a><b c=".toList⟩ := by
    cbv
  have hstop : byteLength ("<a><b c=".toList ++ ['"'] ++ ">".toList ++ ['"']) = 11 := by cbv
  have hstop' : byteLength ("<a><b c=".toList ++ ['"'] ++ "</".toList ++ ['"']) = 12 := by cbv
  rw [← hstop, ← hstop']
  exact scan_inert hread (.quotes rfl rfl) (by decide) (by decide)

/-! ## Unfinished blocks -/

namespace Machine

/-- The state of a scan that skips, after the rest of a text. -/
def readSkipping (m : Machine) (t : List Char) : Except ScanError Machine :=
  match hs : m.skipInert t with
  | (m₁, []) => .ok m₁
  | (m₁, c :: u) =>
    match h : m₁.stepSkipping (c :: u) with
    | .error e => .error e
    | .ok (m₂, rest) =>
      have : rest.length < t.length := by
        have h₁ := length_stepSkipping h
        have h₂ := length_skipInert m t
        rw [hs, List.length_cons] at h₂
        omega
      m₂.readSkipping rest
termination_by t.length

theorem readSkipping_of_nil {m m₁ : Machine} {t : List Char} (hs : m.skipInert t = (m₁, [])) :
    m.readSkipping t = .ok m₁ := by
  rw [readSkipping]
  split
  · rename_i h
    obtain ⟨rfl, -⟩ := Prod.mk.inj (hs.symm.trans h)
    rfl
  · rename_i h
    exact absurd (hs.symm.trans h) (by simp)

theorem readSkipping_of_cons {m m₁ : Machine} {c : Char} {t u : List Char}
    (hs : m.skipInert t = (m₁, c :: u)) :
    m.readSkipping t = m₁.stepSkipping (c :: u) >>= fun p => p.1.readSkipping p.2 := by
  rw [readSkipping]
  split
  · rename_i h
    exact absurd (hs.symm.trans h) (by simp)
  · rename_i hs'
    obtain ⟨rfl, hcons⟩ := Prod.mk.inj (hs.symm.trans hs')
    obtain ⟨rfl, rfl⟩ := List.cons.inj hcons
    split
    · rename_i h
      rw [h]
      rfl
    · rename_i h
      exact (congrArg (· >>= fun p => p.1.readSkipping p.2) h).symm

theorem runSkipping_eq_readSkipping (m : Machine) (t : List Char) :
    m.runSkipping t = m.readSkipping t >>= finish := by
  fun_induction runSkipping m t with
  | case1 m t m₁ hs =>
    rw [readSkipping_of_nil hs]
    rfl
  | case2 m t m₁ c u hs e h =>
    rw [readSkipping_of_cons hs, h]
    rfl
  | case3 m t m₁ c u hs m₂ rest h _ ih =>
    rw [readSkipping_of_cons hs, h]
    exact ih

end Machine

/-- A comment within brackets that `p` leaves unfinished: the quotes behind it are part of it. -/
theorem not_inert_in_unfinished_block :
    ∃ m, Machine.empty.readSkipping "<!D[<!--".toList = .ok m ∧ m.Hides ['"'] ['"'] ∧
      ¬ ['"'] <:+: "-->".toList ∧ ¬ ['"'] <:+: "".toList ∧
      ∀ f R, ¬ SameUpTo f R (scan "<!D[<!--\"-->\"-->]>".toList) (scan "<!D[<!--\"\"-->]>".toList) := by
  refine ⟨⟨.head, 0, 0, some 0, 1, [], #[⟨0, .declaration, 0, none, none⟩], .ofText "<!D[<!--".toList⟩,
    by cbv, .quotes rfl rfl, by decide, by decide, ?_⟩
  have hfails : scan "<!D[<!--\"-->\"-->]>".toList = .error ⟨.unterminatedDeclaration, 0, 1, 1⟩ := by cbv
  have hsucceeds : scan "<!D[<!--\"\"-->]>".toList = .ok ⟨#[⟨0, .declaration, 0, none, some 15⟩],
      .ofText "<!D[<!--\"\"-->]>".toList⟩ := by cbv
  rw [hfails, hsucceeds]
  rintro f R ⟨⟩

end XmlLocate
