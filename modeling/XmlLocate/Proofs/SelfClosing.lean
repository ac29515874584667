import XmlLocate.Proofs.OwnTags

/-!
# Elements without a close tag

A scan takes a start tag for an element by itself if a slash stands before the `>` that ends it. What
it records of this is two equal offsets.

**Theorem (`selfClosing_tfae`).** It is the same whether the two offsets of an element are equal, its
start tag ends in `/>`, its start tag is its whole text, or no close tag is its own. An element that has
a close tag ends with it, behind its start tag.

The tags of an element are known from the tokens (`IsElement`), so that each of the four says that the
element begins with an empty tag. For the text that is so because a tag ends at the first `>` outside
quotes: what stands before it is neither within quotes nor part of the mark that opens the tag
(`emptyTag_iff_slash`). For the close tag it is so because there is one token in one place
(`token_eq_of_lengthOf_eq`).
-/

namespace XmlLocate

/-! ## Tags -/

/-- A start tag is an empty one exactly if a slash stands before its `>`. -/
theorem Token.Heads.emptyTag_iff_slash {t rest : List Char} {k : Token} (h : Heads t k rest)
    (hk : k.isStart ∨ k.form = .emptyTag) : k.form = .emptyTag ↔ ['/', '>'] <:+ k.text := by
  cases h with
  | run => simp [isStart] at hk
  | @markup o t a b hopens hends =>
    cases o with
    | startTag =>
      have hslash : ['/', '>'] <:+ '<' :: a ++ ['>'] ↔ ('<' :: a).getLast? = some '/' := by
        rw [← List.singleton_suffix_iff_getLast?_eq_some]
        exact (List.suffix_append_self_iff : ['/'] ++ ['>'] <:+ ('<' :: a) ++ ['>'] ↔ _)
      have hlast : ('<' :: a).getLast? = some '/' ↔ a.getLast? = some '/' := by
        cases a with
        | nil => simp
        | cons c a => rw [List.getLast?_cons_cons]
      show Opening.startTag.form a = .emptyTag ↔ ['/', '>'] <:+ '<' :: a ++ ['>']
      rw [hslash, hlast, Opening.form]
      simp
    | _ => simp [isStart, Opening.form] at hk
  | @unfinished o =>
    cases o <;> simp [isStart, Opening.form] at hk

/-- A close tag ends at the first `>` behind its mark. -/
theorem Token.Heads.text_of_isClose {t rest : List Char} {k : Token} (h : Heads t k rest)
    (hk : k.isClose) : ∃ w, k.text = ['<', '/'] ++ w ++ ['>'] ∧ '>' ∉ w := by
  cases h with
  | run => simp [isClose] at hk
  | @markup o t a b hopens hends =>
    cases o with
    | closeTag => exact ⟨a, rfl, (firstAt_singleton.mp hends).2⟩
    | startTag =>
      simp only [isClose, Opening.form, Bool.and_true, beq_iff_eq] at hk
      split_ifs at hk
    | _ => simp [isClose, Opening.form] at hk
  | unfinished => simp [isClose] at hk

/-- In one place of a text there is one token. -/
theorem token_eq_of_lengthOf_eq {source : List Char} {before before' behind behind' : List Token}
    {k k' : Token} (h : Token.lex source = before ++ k :: behind)
    (h' : Token.lex source = before' ++ k' :: behind') (hlen : lengthOf before = lengthOf before') :
    k = k' := by
  have htokens : Token.Tokenises source (Token.lex source) := Token.tokenises_iff.mpr rfl
  have hk : (lengthOf before, k) ∈ placed 0 (Token.lex source) := by simp [h]
  have hk' : (lengthOf before', k') ∈ placed 0 (Token.lex source) := by simp [h']
  obtain ⟨a, b, ha, hoffset, hheads⟩ := htokens.exists_of_mem_placed hk
  obtain ⟨a', b', ha', hoffset', hheads'⟩ := htokens.exists_of_mem_placed hk'
  rw [List.append_assoc] at ha ha'
  dsimp only at hoffset hoffset'
  obtain ⟨-, htext⟩ := append_inj_of_byteLength (ha.symm.trans ha') (by omega)
  have hnext := hheads.next_eq
  rw [htext, hheads'.next_eq] at hnext
  exact (Prod.mk.inj hnext).1.symm

/-! ## Elements -/

/-- A close tag is the element's own: the element begins with a start tag, and the tags between the two
are balanced. -/
def Span.HasCloseTag (source : List Char) (s : Span) : Prop :=
  ∃ before o inner c behind, Token.lex source = before ++ o :: (inner ++ c :: behind) ∧ o.isStart ∧
    c.isClose ∧ IsDyck inner ∧ s.start = lengthOf before

section

variable {source : List Char} {s : Span} (lines : LineTable)

theorem head?_of_tokens {before behind : List Token} {k : Token}
    (h : Token.lex source = before ++ k :: behind) (hstart : s.start = lengthOf before)
    (hhead : s.headEnd = some (s.start + k.length)) :
    (Location.mk s lines source).head? = some k.text := by
  have hk : Token.lex source = before ++ [k] ++ behind := by simp [h]
  rw [Location.head?, Location.startOffset, Span.headEndIn, hhead, Option.getD_some, hstart]
  simpa using slice?_of_tokens hk

theorem text?_of_tokens {before inner behind : List Token}
    (h : Token.lex source = before ++ inner ++ behind) (hstart : s.start = lengthOf before)
    (hstop : s.stop = some (s.start + lengthOf inner)) :
    (Location.mk s lines source).text? = some (inner.flatMap Token.text) := by
  rw [Location.text?, Location.startOffset, Location.stopOffset, Span.stopIn, hstop,
    Option.getD_some, hstart]
  exact slice?_of_tokens h

end

/-- **How an element without a close tag is recognised.** The four are the same: its two offsets are
equal, its head ends in `/>`, its head is its text, it has no close tag of its own. Otherwise its text
ends with a close tag, behind its head. -/
theorem selfClosing_tfae {source : List Char} {r : Scan} (h : scan source = .ok r) {s : Span}
    (hs : s ∈ r.spans) (hkind : s.kind = .element) :
    ∃ head text, (Location.mk s r.lines source).head? = some head ∧
      (Location.mk s r.lines source).text? = some text ∧
      List.TFAE [s.isSelfClosing, ['/', '>'] <:+ head, head = text, ¬ s.HasCloseTag source] ∧
      (¬ s.isSelfClosing → ∃ headEnd stop inner w, s.headEnd = some headEnd ∧ s.stop = some stop ∧
        headEnd + 3 ≤ stop ∧ text = inner ++ ['<', '/'] ++ w ++ ['>'] ∧ '>' ∉ w ∧
        headEnd ≤ s.start + byteLength inner) := by
  obtain ⟨hb, hr⟩ := scan_eq_ok_iff.mp h
  have htokens : Token.Tokenises source (Token.lex source) := Token.tokenises_iff.mpr rfl
  have hmem : s ∈ spansOf 0 0 (Token.lex source) := by
    rw [hr] at hs
    exact List.mem_toArray.mp hs
  cases isElement_of_mem_spansOf hb hmem hkind with
  | pair before o inner c behind hks ho hc hi hstart hhead hstop =>
    rw [Nat.zero_add] at hstart
    obtain ⟨_, _, hheads⟩ := htokens.exists_of_mem (k := o) (by simp [hks])
    obtain ⟨_, _, hheads'⟩ := htokens.exists_of_mem (k := c) (by simp [hks])
    obtain ⟨w, hw, hnot⟩ := hheads'.text_of_isClose hc
    have hclose : c.length = 2 + byteLength w + 1 := by
      rw [Token.length, hw, byteLength_append, byteLength_append]
      rfl
    have htokens' : Token.lex source = before ++ (o :: (inner ++ [c])) ++ behind := by simp [hks]
    have hself : ¬ s.isSelfClosing := by
      simp only [Span.isSelfClosing, hkind, hhead, hstop]
      simp
      omega
    have hslash : ¬ ['/', '>'] <:+ o.text := by
      rw [← hheads.emptyTag_iff_slash (.inl ho), Token.form_of_isStart ho]
      simp
    have hne : o.text ≠ (o :: (inner ++ [c])).flatMap Token.text := by
      intro heq
      have hlength : o.length = lengthOf (o :: (inner ++ [c])) := congrArg byteLength heq
      simp only [lengthOf_cons, lengthOf_append, lengthOf_nil] at hlength
      omega
    have hown : s.HasCloseTag source := ⟨before, o, inner, c, behind, hks, ho, hc, hi.isDyck, hstart⟩
    refine ⟨o.text, (o :: (inner ++ [c])).flatMap Token.text, head?_of_tokens _ hks hstart hhead,
      text?_of_tokens _ htokens' hstart (by simp [hstop, Nat.add_assoc]), ?_, ?_⟩
    · refine List.tfae_of_forall False _ ?_
      simp only [List.forall_mem_cons, iff_false]
      exact ⟨hself, hslash, hne, not_not.mpr hown, List.forall_mem_nil _⟩
    · intro _
      refine ⟨_, _, (o :: inner).flatMap Token.text, w, hhead, hstop, by omega, ?_, hnot, ?_⟩
      · simp [hw]
      · rw [List.flatMap_cons, byteLength_append]
        exact (Nat.le_add_right _ _).trans_eq (Nat.add_assoc _ _ _)
  | empty before k behind hks hf hc hstart hhead hstop =>
    rw [Nat.zero_add] at hstart
    obtain ⟨_, _, hheads⟩ := htokens.exists_of_mem (k := k) (by simp [hks])
    have htokens' : Token.lex source = before ++ [k] ++ behind := by simp [hks]
    have hself : s.isSelfClosing := by
      simp [Span.isSelfClosing, hkind, hhead, hstop]
    have hslash : ['/', '>'] <:+ k.text := (hheads.emptyTag_iff_slash (.inr hf)).mp hf
    have hown : ¬ s.HasCloseTag source := by
      rintro ⟨before', o, inner, c, behind', hks', ho, -, -, hstart'⟩
      obtain rfl := token_eq_of_lengthOf_eq hks hks' (hstart.symm.trans hstart')
      exact absurd (hf.symm.trans (Token.form_of_isStart ho)) (by simp)
    have htext := text?_of_tokens r.lines htokens' hstart (by simp [hstop])
    rw [List.flatMap_singleton] at htext
    refine ⟨k.text, k.text, head?_of_tokens _ hks hstart hhead, htext, ?_, fun hnot => absurd hself hnot⟩
    refine List.tfae_of_forall True _ ?_
    simp [hself, hslash, hown]

/-- A slash within quotes, a slash behind a value and a slash that a blank follows. -/
theorem selfClosing_despite_slash :
    ∃ head text,
      (Location.mk ⟨2, .element, 18, some 25, some 30⟩ (.ofText "<a b='/>'><d e=x/><f /  ></f\n></a>".toList)
        "<a b='/>'><d e=x/><f /  ></f\n></a>".toList).head? = some head ∧
      (Location.mk ⟨2, .element, 18, some 25, some 30⟩ (.ofText "<a b='/>'><d e=x/><f /  ></f\n></a>".toList)
        "<a b='/>'><d e=x/><f /  ></f\n></a>".toList).text? = some text ∧
      List.TFAE [Span.isSelfClosing ⟨2, .element, 18, some 25, some 30⟩, ['/', '>'] <:+ head, head = text,
        ¬ Span.HasCloseTag "<a b='/>'><d e=x/><f /  ></f\n></a>".toList
          ⟨2, .element, 18, some 25, some 30⟩] ∧
      ∃ headEnd stop inner w, some 25 = some headEnd ∧ some 30 = some stop ∧ headEnd + 3 ≤ stop ∧
        text = inner ++ ['<', '/'] ++ w ++ ['>'] ∧ '>' ∉ w ∧ headEnd ≤ 18 + byteLength inner := by
  obtain ⟨head, text, hhead, htext, htfae, hclose⟩ := @selfClosing_tfae
    "<a b='/>'><d e=x/><f /  ></f\n></a>".toList
    ⟨#[⟨0, .element, 0, some 10, some 34⟩, ⟨1, .element, 10, some 18, some 18⟩,
      ⟨2, .element, 18, some 25, some 30⟩], .ofText "<a b='/>'><d e=x/><f /  ></f\n></a>".toList⟩
    (by cbv) ⟨2, .element, 18, some 25, some 30⟩ (by simp) rfl
  exact ⟨head, text, hhead, htext, htfae, hclose (by decide)⟩

end XmlLocate
