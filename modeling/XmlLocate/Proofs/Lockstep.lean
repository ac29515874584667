import XmlLocate.Proofs.Reading
import XmlLocate.Proofs.Tokenisation

/-!
# Where a reader and a scan find the same tags

**Theorem (`tags_lex_of_reads`).** If a reader and a scan agree on where the end tags and the
document types of a text end (`Markup.Agrees`), the start and empty tags of the reader are the tokens
of the scan that have element spans.

The two differ only there. A reader looks for the `>` that ends an end tag outside quotes, a scan
takes the first. A reader ends a document type at the `>` that balances its `<`, a scan at the first
`>` outside brackets and quotes. For all other markup a piece that the reader finds is the token that
stands there (`heads_of_split`).
-/

namespace XmlLocate

/-! ## Ends do not depend on what follows -/

theorem FirstAt.append {mark t a b : List Char} (h : FirstAt mark t a b) (r : List Char) :
    FirstAt mark (t ++ r) a (b ++ r) := by
  obtain ⟨rfl, hmin⟩ := h
  refine ⟨by simp, ?_⟩
  intro a' b' he
  by_contra hlt
  -- An earlier mark ends before the first one does, so it stands in the text without `r`.
  have hpre : a' ++ mark <+: a ++ mark := by
    refine List.prefix_of_prefix_length_le ⟨b', he⟩ ⟨b ++ r, by simp⟩ ?_
    simp only [List.length_append]
    omega
  obtain ⟨u, hu⟩ := hpre
  refine hlt (hmin a' (u ++ b) ?_)
  show a' ++ mark ++ (u ++ b) = a ++ mark ++ b
  rw [← List.append_assoc, hu]

theorem prefix_of_notMem {m u v : List Char} {x : Char} (hx : x ∉ m) (h : m <+: u ++ x :: v) :
    m <+: u := by
  by_cases hle : m.length ≤ u.length
  · exact List.prefix_of_prefix_length_le h ⟨x :: v, rfl⟩ hle
  · have hpre : u ++ [x] <+: m := by
      refine List.prefix_of_prefix_length_le ⟨v, by simp⟩ h ?_
      simp only [List.length_append, List.length_singleton]
      omega
    exact absurd (hpre.subset (by simp)) hx

theorem DeclarationEnd.append {d : Nat} {a b : List Char} (h : DeclarationEnd d a b)
    (r : List Char) : DeclarationEnd d a (b ++ r) := by
  induction h with
  | here b => exact .here _
  | quoted hq hs _ ih => exact .quoted hq hs ih
  | block hd ho hfirst _ ih =>
    refine .block hd ho ?_ ih
    simpa using hfirst.append r
  | @other d c a b hq hend hblock _ ih =>
    refine .other hq hend (fun hd o ho hp => hblock hd o ho ?_) ih
    have hmark : '>' ∉ o.mark := by
      simp only [nestedOpenings, List.mem_cons, List.not_mem_nil, or_false] at ho
      rcases ho with rfl | rfl <;> decide
    have hpre : o.mark <+: c :: a := by
      refine prefix_of_notMem (x := '>') (v := b ++ r) hmark ?_
      simpa using hp
    exact hpre.trans ⟨['>'] ++ b, by simp⟩

/-! ## Pieces of markup as tokens -/

namespace Markup

/-- Whether a reader and a scan agree on where a piece of markup ends. -/
def Agrees : Markup → Prop
  | endTag c => '>' ∉ c
  | doctype c => DeclarationEnd 0 c []
  | _ => True

/-- What opens a piece of markup. -/
def opening : Markup → Opening
  | startTag _ | emptyTag _ => .startTag
  | endTag _ => .closeTag
  | comment _ => .comment
  | cdata _ => .cdata
  | instruction _ => .instruction
  | doctype _ => .declaration

/-- What stands between the delimiters of a piece of markup. -/
def body : Markup → List Char
  | emptyTag c => c ++ ['/']
  | startTag c | endTag c | comment c | cdata c | instruction c | doctype c => c

/-- A piece of markup as a token. -/
def token (m : Markup) : Token := ⟨m.opening.form m.body, m.source, true⟩

theorem source_eq (m : Markup) : m.source = m.opening.mark ++ m.body ++ m.opening.close := by
  cases m <;> simp [source, opening, body, Opening.mark, Opening.close]

theorem heads_token {m : Markup} {rest : List Char}
    (ho : Opens m.opening (m.source ++ rest))
    (he : Ends m.opening (m.body ++ m.opening.close ++ rest) m.body rest) :
    Token.Heads (m.source ++ rest) m.token rest := by
  have heq : m.source ++ rest = m.opening.mark ++ (m.body ++ m.opening.close ++ rest) := by
    rw [source_eq]
    simp
  rw [heq] at ho ⊢
  have := Token.Heads.markup ho he
  rwa [← source_eq] at this

theorem exists_of_splitEnclosed {mark close t rest : List Char} {make : List Char → Markup}
    {problem : MarkupProblem} {m : Markup} (hc : close ≠ [])
    (h : splitEnclosed mark close make problem t = .ok (m, rest)) :
    ∃ b, m = make b ∧ t = mark ++ (b ++ close ++ rest) ∧ FirstAt close (b ++ close ++ rest) b rest := by
  unfold splitEnclosed at h
  split at h
  · rename_i b r hs
    obtain ⟨rfl, rfl⟩ := Prod.mk.inj (Except.ok.inj h)
    split at hs
    · rename_i hp
      obtain ⟨u, rfl⟩ := List.isPrefixOf_iff_prefix.mp hp
      rw [List.drop_left] at hs
      obtain rfl := splitAround_eq hs
      exact ⟨b, rfl, rfl, (splitAround_eq_some_iff hc).mp hs⟩
    · exact absurd hs (by simp)
  · exact absurd h (by simp)

theorem exists_of_splitTagWith {t rest : List Char} {make : List Char → Markup} {m : Markup}
    (h : splitTagWith make t = .ok (m, rest)) :
    ∃ c, m = make c ∧ t = c ++ ['>'] ++ rest ∧ TagEnd none t c rest := by
  unfold splitTagWith at h
  split at h
  · rename_i c r hs
    obtain ⟨rfl, rfl⟩ := Prod.mk.inj (Except.ok.inj h)
    exact ⟨c, rfl, (splitTag_eq hs).symm, splitTag_eq_some_iff.mp hs⟩
  · exact absurd h (by simp)

theorem exists_of_splitDoctype {t rest : List Char} {m : Markup}
    (h : splitDoctype t = .ok (m, rest)) : ∃ c, m = doctype c ∧ t = c ++ ['>'] ++ rest := by
  unfold splitDoctype at h
  split at h
  · rename_i c r hs
    obtain ⟨rfl, rfl⟩ := Prod.mk.inj (Except.ok.inj h)
    split at hs
    · exact ⟨c, rfl, (splitBalanced_eq hs).symm⟩
    · exact absurd hs (by simp)
  · exact absurd h (by simp)

theorem opening_tag (c : List Char) : (tag c).opening = .startTag := by
  unfold tag
  split <;> rfl

theorem body_tag (c : List Char) : (tag c).body = c := by
  unfold tag
  split
  · rename_i h
    obtain ⟨u, rfl⟩ := List.getLast?_eq_some_iff.mp h
    simp [body]
  · rfl

theorem opens_startTag {t : List Char} (hslash : ∀ u, t = '/' :: u → False)
    (hquestion : ∀ u, t = '?' :: u → False) (hbang : ∀ u, t = '!' :: u → False) :
    Opens .startTag ('<' :: t) := by
  refine ⟨⟨t, rfl⟩, ?_, ?_, ?_⟩
  · rintro ⟨u, hu⟩
    exact hslash u (List.cons.inj hu).2.symm
  · rintro ⟨u, hu⟩
    exact hquestion u (List.cons.inj hu).2.symm
  · rintro ⟨u, hu⟩
    exact hbang u (List.cons.inj hu).2.symm

/-- **A piece of markup that a reader finds is the token that stands there**, if the two agree on
where it ends. -/
theorem heads_of_split {t rest : List Char} {m : Markup} (h : split t = .ok (m, rest))
    (ha : m.Agrees) : Token.Heads ('<' :: t) m.token rest := by
  have htext := source_append_of_split h
  rw [← htext]
  unfold split at h
  split at h
  · obtain ⟨b, rfl, -, hfirst⟩ := exists_of_splitEnclosed (by simp) h
    exact heads_token ⟨b ++ [']', ']', '>'] ++ rest, by simp [source]⟩ hfirst
  · obtain ⟨b, rfl, -, hfirst⟩ := exists_of_splitEnclosed (by simp) h
    exact heads_token ⟨b ++ ['-', '-', '>'] ++ rest, by simp [source]⟩ hfirst
  · obtain ⟨c, rfl, hc⟩ := exists_of_splitDoctype h
    obtain ⟨c, rfl⟩ : ∃ c', c = 'D' :: c' := by
      cases c with
      | nil => simp at hc
      | cons d c => exact ⟨c, by simp at hc; rw [hc.1]⟩
    refine heads_token ?_ ⟨rfl, DeclarationEnd.append ha rest⟩
    refine ⟨⟨'D' :: c ++ ['>'] ++ rest, by simp [source]⟩, ?_, ?_⟩ <;> simp [source]
  · obtain ⟨c, rfl, hc⟩ := exists_of_splitDoctype h
    obtain ⟨c, rfl⟩ : ∃ c', c = 'd' :: c' := by
      cases c with
      | nil => simp at hc
      | cons d c => exact ⟨c, by simp at hc; rw [hc.1]⟩
    refine heads_token ?_ ⟨rfl, DeclarationEnd.append ha rest⟩
    refine ⟨⟨'d' :: c ++ ['>'] ++ rest, by simp [source]⟩, ?_, ?_⟩ <;> simp [source]
  · exact absurd h (by simp)
  · exact absurd h (by simp)
  · obtain ⟨b, rfl, -, hfirst⟩ := exists_of_splitEnclosed (by simp) h
    exact heads_token ⟨b ++ ['?', '>'] ++ rest, by simp [source]⟩ hfirst
  · obtain ⟨c, rfl, -, -⟩ := exists_of_splitTagWith h
    refine heads_token ⟨c ++ ['>'] ++ rest, by simp [source]⟩ ?_
    exact firstAt_singleton.mpr ⟨rfl, ha⟩
  · rename_i hbang _ hquestion hslash
    obtain ⟨c, rfl, hc, htag⟩ := exists_of_splitTagWith h
    refine heads_token ?_ ?_
    · rw [opening_tag, htext]
      exact opens_startTag hslash hquestion hbang
    · rw [opening_tag, body_tag]
      rwa [hc] at htag

theorem kind?_token (m : Markup) : m.token.kind? = some .element ↔ m.isTag := by
  unfold token Opening.form Token.kind?
  cases m <;> simp only [opening, isTag] <;> (try split_ifs) <;> simp

end Markup

/-! ## Tags -/

/-- The tokens that begin an element, in their places. -/
def tagTokens (offset : Nat) (ks : List Token) : List (Nat × Token) :=
  (placed offset ks).filter fun p => p.2.kind? == some .element

theorem tagTokens_cons (offset : Nat) (k : Token) (ks : List Token) :
    tagTokens offset (k :: ks) =
      (if k.kind? = some .element then [(offset, k)] else []) ++ tagTokens (offset + k.length) ks := by
  rw [tagTokens, placed_cons, List.filter_cons]
  by_cases hk : k.kind? = some .element <;> simp [hk, tagTokens]

theorem tagTokens_lex_append {u v : List Char} (hu : '<' ∉ u) (hv : v = [] ∨ ['<'] <+: v)
    (offset : Nat) :
    tagTokens offset (Token.lex (u ++ v)) = tagTokens (offset + byteLength u) (Token.lex v) := by
  by_cases hne : u = []
  · rw [hne]
    rfl
  · rw [Token.lex_of_heads (.run hne hu hv), tagTokens_cons, if_neg]
    · rfl
    · simp only [Token.kind?]
      split <;> simp

/-- **A reader and a scan find the same tags** in a text about whose markup they agree. -/
theorem tags_lex_of_reads {offset : Nat} {t : List Char} {ms : List (Nat × Markup)}
    (h : Reads offset t ms) (ha : ∀ p ∈ ms, p.2.Agrees) :
    tagTokens offset (Token.lex t) =
      (ms.filter fun p => p.2.isTag).map fun p => (p.1, p.2.token) := by
  induction h with
  | @nil offset t ht =>
    have := tagTokens_lex_append ht (.inl rfl) offset
    rw [List.append_nil] at this
    rw [this, Token.lex, dif_pos rfl]
    rfl
  | @cons offset u t rest m ms hu hsplit _ ih =>
    have hheads := Markup.heads_of_split hsplit (ha _ (List.mem_cons_self ..))
    have ih := ih fun p hp => ha p (List.mem_cons_of_mem _ hp)
    have hlen : m.token.length = byteLength m.source := rfl
    have hmarkup : ['<'] <+: '<' :: t := ⟨t, rfl⟩
    rw [tagTokens_lex_append hu (.inr hmarkup), Token.lex_of_heads hheads, tagTokens_cons, hlen, ih,
      List.filter_cons]
    by_cases hm : m.isTag
    · simp [hm, (Markup.kind?_token m).mpr hm]
    · simp [hm, mt (Markup.kind?_token m).mp hm]

end XmlLocate
