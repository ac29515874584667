import Mathlib.Data.List.TakeWhile
import XmlLocate.Proofs.FirstOccurrence

/-!
# A grammar of tokens

What the tokens of a text are, said without a lexer. A text begins with exactly one token; what
stands at its beginning decides which.

**Texts have one tokenisation (`tokenises_iff`).** `Tokenises t ks` holds for the tokens that
`Token.lex` gives, and for no others.

* `Opens o t`: the text `t` begins with the mark of `o`, and not with a longer one.
* `Ends o t a b`: behind the mark, what was opened with `o` ends after `a` and leaves `b`. Most
  constructs end at the first occurrence of a delimiter, tags at the first `>` outside quotes.
* `DeclarationEnd d a b`: a declaration that is `d` brackets deep goes on with `a`, and the `>`
  between `a` and `b` ends it.
-/

namespace XmlLocate

/-! ## Declarations -/

/-- The blocks that a declaration may hold within brackets. -/
def nestedOpenings : List Opening := [.comment, .instruction]

/-- In `a ++ ">" ++ b`, at bracket depth `d` of a declaration, the `>` behind `a` is the first that
ends the declaration: it is outside brackets, quoted strings and nested blocks. -/
inductive DeclarationEnd : Nat → List Char → List Char → Prop
  | here (b : List Char) : DeclarationEnd 0 [] b
  | quoted {d : Nat} {q : Char} {s a b : List Char} : isQuote q → q ∉ s →
      DeclarationEnd d a b → DeclarationEnd d (q :: (s ++ [q] ++ a)) b
  | block {d : Nat} {o : Opening} {s a b : List Char} : 0 < d → o ∈ nestedOpenings →
      FirstAt o.close (s ++ o.close ++ (a ++ ['>'] ++ b)) s (a ++ ['>'] ++ b) →
      DeclarationEnd d a b → DeclarationEnd d (o.mark ++ s ++ o.close ++ a) b
  | other {d : Nat} {c : Char} {a b : List Char} : isQuote c = false → ¬ (c = '>' ∧ d = 0) →
      (0 < d → ∀ o ∈ nestedOpenings, ¬ o.mark <+: c :: (a ++ ['>'] ++ b)) →
      DeclarationEnd (depthAfter d c) a b → DeclarationEnd d (c :: a) b

theorem enclosure?_of_isQuote {d : Nat} {c : Char} {t : List Char} (h : isQuote c) :
    enclosure? d c t = some (0, [c]) := by
  rw [enclosure?, if_pos h]

theorem enclosure?_of_block {d : Nat} {c : Char} {t : List Char} {o : Opening} (hd : 0 < d)
    (ho : o ∈ nestedOpenings) (h : o.mark <+: c :: t) :
    enclosure? d c t = some (o.mark.length - 1, o.close) := by
  simp only [nestedOpenings, List.mem_cons, List.not_mem_nil, or_false] at ho
  have hc : c = '<' := by
    rcases ho with rfl | rfl <;> exact (List.cons_prefix_cons.mp h).1.symm
  have hnd : ¬ (d = 0 ∨ c ≠ '<') := by simp [hc]; omega
  rw [enclosure?, if_neg (by rw [hc]; decide), if_neg hnd]
  rcases ho with rfl | rfl
  · have hp := (List.cons_prefix_cons.mp h).2
    rw [if_pos (List.isPrefixOf_iff_prefix.mpr hp)]
    rfl
  · have hp := (List.cons_prefix_cons.mp h).2
    have hn : ¬ ['!', '-', '-'].isPrefixOf t = true := by
      intro hn
      obtain ⟨u, rfl⟩ := hp
      have := (List.cons_prefix_cons.mp (List.isPrefixOf_iff_prefix.mp hn)).1
      exact absurd this (by decide)
    rw [if_neg hn, if_pos (List.isPrefixOf_iff_prefix.mpr hp)]
    rfl

theorem enclosure?_eq_none {d : Nat} {c : Char} {t : List Char} (hq : isQuote c = false)
    (h : 0 < d → ∀ o ∈ nestedOpenings, ¬ o.mark <+: c :: t) : enclosure? d c t = none := by
  rw [enclosure?, if_neg (by simp [hq])]
  by_cases hd : d = 0 ∨ c ≠ '<'
  · rw [if_pos hd]
  · rw [if_neg hd]
    push Not at hd
    obtain ⟨hd, rfl⟩ := hd
    have h' := h (Nat.pos_of_ne_zero hd)
    have hcomment := h' .comment (by simp [nestedOpenings])
    have hinstruction := h' .instruction (by simp [nestedOpenings])
    rw [if_neg fun hp => hcomment (List.cons_prefix_cons.mpr ⟨rfl, List.isPrefixOf_iff_prefix.mp hp⟩),
      if_neg fun hp =>
        hinstruction (List.cons_prefix_cons.mpr ⟨rfl, List.isPrefixOf_iff_prefix.mp hp⟩)]

/-- What begins at a character: a quoted string, a nested block, or nothing. -/
theorem enclosure?_cases (d : Nat) (c : Char) (t : List Char) :
    (isQuote c ∧ enclosure? d c t = some (0, [c])) ∨
    (∃ o ∈ nestedOpenings, 0 < d ∧ o.mark <+: c :: t ∧
      enclosure? d c t = some (o.mark.length - 1, o.close)) ∨
    (isQuote c = false ∧ (0 < d → ∀ o ∈ nestedOpenings, ¬ o.mark <+: c :: t) ∧
      enclosure? d c t = none) := by
  by_cases hq : isQuote c
  · exact .inl ⟨hq, enclosure?_of_isQuote hq⟩
  · rw [Bool.not_eq_true] at hq
    by_cases h : 0 < d → ∀ o ∈ nestedOpenings, ¬ o.mark <+: c :: t
    · exact .inr (.inr ⟨hq, h, enclosure?_eq_none hq h⟩)
    · push Not at h
      obtain ⟨hd, o, ho, hp⟩ := h
      exact .inr (.inl ⟨o, ho, hd, hp, enclosure?_of_block hd ho hp⟩)

theorem firstAt_singleton {c : Char} {t a b : List Char} :
    FirstAt [c] t a b ↔ a ++ [c] ++ b = t ∧ c ∉ a := by
  constructor
  · rintro ⟨h, hmin⟩
    refine ⟨h, ?_⟩
    intro hc
    obtain ⟨a1, a2, rfl⟩ := List.append_of_mem hc
    have := hmin a1 (a2 ++ [c] ++ b) (by rw [← h]; simp)
    simp at this
  · rintro ⟨h, hc⟩
    refine ⟨h, ?_⟩
    intro a' b' h'
    by_contra hlt
    rw [not_le] at hlt
    have hp : a' ++ [c] <+: a := by
      refine List.prefix_of_prefix_length_le ⟨b', h'⟩ ⟨[c] ++ b, by rw [← h]; simp⟩ ?_
      simpa using hlt
    exact hc (hp.subset (by simp))

theorem cons_take_eq_mark {m t : List Char} {c : Char} (hm : 0 < m.length) (h : m <+: c :: t) :
    c :: t.take (m.length - 1) = m := by
  obtain ⟨n, hn⟩ := Nat.exists_eq_add_one.mpr hm
  have := List.prefix_iff_eq_take.mp h
  rw [hn, List.take_succ_cons] at this
  rw [hn, Nat.add_sub_cancel]
  exact this.symm

theorem declarationEnd_of_splitDeclaration {d : Nat} {t a b : List Char}
    (h : splitDeclaration d t = some (a, b)) : DeclarationEnd d a b := by
  fun_induction splitDeclaration d t generalizing a b with
  | case1 => simp at h
  | case2 => simp at h
  | case3 d c t n mark he a' b' hs _ ih =>
    obtain ⟨⟨a'', b''⟩, h', heq⟩ := Option.map_eq_some_iff.mp h
    obtain ⟨rfl, rfl⟩ := Prod.mk.inj heq
    have hb := splitDeclaration_eq h'
    rcases enclosure?_cases d c t with ⟨hq, hc⟩ | ⟨o, ho, hd, hp, hc⟩ | ⟨-, -, hc⟩
    · obtain ⟨rfl, rfl⟩ := Prod.mk.inj (Option.some.inj (he.symm.trans hc))
      have := firstAt_singleton.mp ((splitAround_eq_some_iff (by simp)).mp hs)
      simpa using DeclarationEnd.quoted hq this.2 (ih h')
    · obtain ⟨rfl, rfl⟩ := Prod.mk.inj (Option.some.inj (he.symm.trans hc))
      have hne : o.close ≠ [] := List.length_pos_iff.mp o.length_close_pos
      have hfirst := (splitAround_eq_some_iff hne).mp hs
      rw [cons_take_eq_mark o.length_mark_pos hp]
      refine .block hd ho ?_ (ih h')
      rw [hb, hfirst.1]
      exact hfirst
    · rw [he] at hc
      exact absurd hc (by simp)
  | case4 d c t he hend =>
    obtain ⟨rfl, rfl⟩ := Prod.mk.inj (Option.some.inj h)
    rw [hend.2]
    exact .here _
  | case5 d c t he hend ih =>
    obtain ⟨⟨a', b'⟩, h', heq⟩ := Option.map_eq_some_iff.mp h
    obtain ⟨rfl, rfl⟩ := Prod.mk.inj heq
    rcases enclosure?_cases d c t with ⟨hq, hc⟩ | ⟨o, ho, hd, hp, hc⟩ | ⟨hq, hp, -⟩
    · exact absurd (he.symm.trans hc) (by simp)
    · exact absurd (he.symm.trans hc) (by simp)
    · refine .other hq hend ?_ (ih h')
      rw [splitDeclaration_eq h']
      exact hp

theorem splitDeclaration_of_enclosure {d n : Nat} {c : Char} {t mark s r a b : List Char}
    (he : enclosure? d c t = some (n, mark)) (hs : splitAround mark (t.drop n) = some (s, r))
    (hr : splitDeclaration d r = some (a, b)) :
    splitDeclaration d (c :: t) = some (c :: t.take n ++ s ++ mark ++ a, b) := by
  rw [splitDeclaration]
  split
  · rename_i n' mark' he'
    obtain ⟨rfl, rfl⟩ := Prod.mk.inj (Option.some.inj (he.symm.trans he'))
    split
    · rename_i hs'
      exact absurd (hs.symm.trans hs') (by simp)
    · rename_i s' r' hs'
      obtain ⟨rfl, rfl⟩ := Prod.mk.inj (Option.some.inj (hs.symm.trans hs'))
      rw [hr]
      rfl
  · rename_i he'
    exact absurd (he.symm.trans he') (by simp)

theorem splitDeclaration_of_declarationEnd {d : Nat} {a b : List Char}
    (h : DeclarationEnd d a b) : splitDeclaration d (a ++ ['>'] ++ b) = some (a, b) := by
  induction h with
  | here b =>
    have he : enclosure? 0 '>' b = none := enclosure?_eq_none (by decide) fun h => absurd h (by decide)
    rw [List.nil_append, List.singleton_append, splitDeclaration, he]
    exact if_pos ⟨rfl, rfl⟩
  | @quoted d q s a b hq hs _ ih =>
    have hsplit : splitAround [q] ((s ++ [q] ++ a ++ ['>'] ++ b).drop 0) = some (s, a ++ ['>'] ++ b) :=
      (splitAround_eq_some_iff (by simp)).mpr (firstAt_singleton.mpr ⟨by simp, hs⟩)
    have := splitDeclaration_of_enclosure (enclosure?_of_isQuote hq) hsplit ih
    simpa using this
  | @block d o s a b hd ho hfirst _ ih =>
    have hne : o.close ≠ [] := List.length_pos_iff.mp o.length_close_pos
    obtain ⟨c, m, hm⟩ := List.exists_cons_of_length_pos o.length_mark_pos
    have hlen : o.mark.length - 1 = m.length := by rw [hm]; rfl
    have heq : o.mark ++ s ++ o.close ++ a ++ ['>'] ++ b =
        c :: (m ++ (s ++ o.close ++ (a ++ ['>'] ++ b))) := by rw [hm]; simp
    have hsplit := (splitAround_eq_some_iff hne).mpr hfirst
    rw [heq]
    have henc : enclosure? d c (m ++ (s ++ o.close ++ (a ++ ['>'] ++ b))) =
        some (m.length, o.close) := by
      rw [← hlen]
      exact enclosure?_of_block hd ho ⟨_, by rw [hm]; rfl⟩
    rw [splitDeclaration_of_enclosure henc (by rwa [List.drop_left]) ih, List.take_left, hm]
  | @other d c a b hq hend hblock _ ih =>
    have he := enclosure?_eq_none hq hblock
    rw [List.cons_append, List.cons_append, splitDeclaration, he]
    exact (if_neg hend).trans (by rw [ih]; rfl)

/-- `splitDeclaration` stops at the `>` that ends a declaration. -/
theorem splitDeclaration_eq_some_iff {d : Nat} {t a b : List Char} :
    splitDeclaration d t = some (a, b) ↔ a ++ ['>'] ++ b = t ∧ DeclarationEnd d a b := by
  constructor
  · exact fun h => ⟨splitDeclaration_eq h, declarationEnd_of_splitDeclaration h⟩
  · rintro ⟨rfl, h⟩
    exact splitDeclaration_of_declarationEnd h

/-! ## What a `<` opens -/

/-- What the beginning of a text opens. Of the marks that begin with `<!` the longest counts. -/
def Opens : Opening → List Char → Prop
  | .closeTag, t => ['<', '/'] <+: t
  | .instruction, t => ['<', '?'] <+: t
  | .comment, t => ['<', '!', '-', '-'] <+: t
  | .cdata, t => ['<', '!', '[', 'C', 'D', 'A', 'T', 'A', '['] <+: t
  | .declaration, t => ['<', '!'] <+: t ∧ ¬ ['<', '!', '-', '-'] <+: t ∧
      ¬ ['<', '!', '[', 'C', 'D', 'A', 'T', 'A', '['] <+: t
  | .startTag, t => ['<'] <+: t ∧ ¬ ['<', '/'] <+: t ∧ ¬ ['<', '?'] <+: t ∧ ¬ ['<', '!'] <+: t

theorem opens_ofText (t : List Char) : Opens (.ofText ('<' :: t)) ('<' :: t) := by
  unfold Opening.ofText
  simp only [List.isPrefixOf_iff_prefix, Opening.mark]
  split_ifs with h1 h2 h3 h4 h5
  · exact h1
  · exact h2
  · exact h3
  · exact h4
  · exact ⟨h5, h3, h4⟩
  · exact ⟨⟨t, rfl⟩, h1, h2, h5⟩

/-- Two different characters do not both come second. -/
theorem not_prefix_of_second {t : List Char} {a c d : Char} {m n : List Char} (hne : c ≠ d)
    (h : a :: c :: m <+: t) : ¬ a :: d :: n <+: t := by
  obtain ⟨u, rfl⟩ := h
  simp [List.cons_prefix_cons, hne.symm]

theorem ofText_eq_of_opens {o : Opening} {t : List Char} (h : Opens o t) : Opening.ofText t = o := by
  unfold Opening.ofText
  simp only [List.isPrefixOf_iff_prefix, Opening.mark]
  cases o with
  | closeTag => exact if_pos h
  | instruction =>
    rw [if_neg (not_prefix_of_second (by decide) h)]
    exact if_pos h
  | comment =>
    rw [if_neg (not_prefix_of_second (by decide) h), if_neg (not_prefix_of_second (by decide) h)]
    exact if_pos h
  | cdata =>
    have hcomment : ¬ ['<', '!', '-', '-'] <+: t := by
      obtain ⟨u, rfl⟩ := h
      simp [List.cons_prefix_cons]
    rw [if_neg (not_prefix_of_second (by decide) h), if_neg (not_prefix_of_second (by decide) h),
      if_neg hcomment]
    exact if_pos h
  | declaration =>
    obtain ⟨h, hcomment, hcdata⟩ := h
    rw [if_neg (not_prefix_of_second (by decide) h), if_neg (not_prefix_of_second (by decide) h),
      if_neg hcomment, if_neg hcdata, if_pos h]
  | startTag =>
    obtain ⟨-, hclose, hinstruction, hdeclaration⟩ := h
    have hmore : ∀ m, ¬ ['<', '!'] ++ m <+: t := fun m h =>
      hdeclaration ((List.prefix_append _ m).trans h)
    rw [if_neg hclose, if_neg hinstruction]
    refine (if_neg (hmore ['-', '-'])).trans ?_
    exact (if_neg (hmore ['[', 'C', 'D', 'A', 'T', 'A', '['])).trans (if_neg hdeclaration)

theorem exists_of_opens {o : Opening} {t : List Char} (h : Opens o t) : ∃ u, t = '<' :: u := by
  have hp : ['<'] <+: t := by
    cases o with
    | declaration => exact (List.prefix_append ['<'] ['!']).trans h.1
    | startTag => exact h.1
    | closeTag => exact (List.prefix_append ['<'] ['/']).trans h
    | instruction => exact (List.prefix_append ['<'] ['?']).trans h
    | comment => exact (List.prefix_append ['<'] ['!', '-', '-']).trans h
    | cdata => exact (List.prefix_append ['<'] ['!', '[', 'C', 'D', 'A', 'T', 'A', '[']).trans h
  obtain ⟨u, rfl⟩ := hp
  exact ⟨u, rfl⟩

/-- Behind its mark, what was opened with `o` ends after `a`, and `b` follows. -/
def Ends : Opening → List Char → List Char → List Char → Prop
  | .closeTag, t, a, b => FirstAt ['>'] t a b
  | .instruction, t, a, b => FirstAt ['?', '>'] t a b
  | .comment, t, a, b => FirstAt ['-', '-', '>'] t a b
  | .cdata, t, a, b => FirstAt [']', ']', '>'] t a b
  | .declaration, t, a, b => a ++ ['>'] ++ b = t ∧ DeclarationEnd 0 a b
  | .startTag, t, a, b => TagEnd none t a b

theorem split_eq_some_iff {o : Opening} {t a b : List Char} :
    o.split t = some (a, b) ↔ Ends o t a b := by
  cases o with
  | declaration => exact splitDeclaration_eq_some_iff
  | startTag => exact splitTag_eq_some_iff
  | _ => exact splitAround_eq_some_iff (by simp [Opening.close])

/-! ## Tokens -/

theorem takeWhile_lt_append {u v : List Char} (hu : '<' ∉ u) (hv : v = [] ∨ ['<'] <+: v) :
    (u ++ v).takeWhile (· != '<') = u ∧ (u ++ v).dropWhile (· != '<') = v := by
  have hall : ∀ d ∈ u, (d != '<') = true := by
    intro d hd
    simpa using ne_of_mem_of_not_mem hd hu
  rw [List.takeWhile_append_of_pos hall, List.dropWhile_append_of_pos hall]
  rcases hv with rfl | ⟨w, rfl⟩ <;> simp

namespace Token

/-- `k` is the token at the beginning of the first text, and the second text follows it. -/
inductive Heads : List Char → Token → List Char → Prop
  /-- A run of characters up to the next `<` or the end. -/
  | run {a b : List Char} : a ≠ [] → '<' ∉ a → (b = [] ∨ ['<'] <+: b) →
      Heads (a ++ b) ⟨.text, a, !b.isEmpty⟩ b
  /-- Markup up to where it ends. -/
  | markup {o : Opening} {t a b : List Char} : Opens o (o.mark ++ t) → Ends o t a b →
      Heads (o.mark ++ t) ⟨o.form a, o.mark ++ a ++ o.close, true⟩ b
  /-- Markup that has no end takes all that is left. -/
  | unfinished {o : Opening} {t : List Char} : Opens o (o.mark ++ t) → (∀ a b, ¬ Ends o t a b) →
      Heads (o.mark ++ t) ⟨o.form [], o.mark ++ t, false⟩ []

/-- The tokens that a text is made of, one after the other. -/
inductive Tokenises : List Char → List Token → Prop
  | nil : Tokenises [] []
  | cons {t rest : List Char} {k : Token} {ks : List Token} :
      Heads t k rest → Tokenises rest ks → Tokenises t (k :: ks)

theorem Heads.ne_nil {t rest : List Char} {k : Token} (h : Heads t k rest) : t ≠ [] := by
  cases h with
  | run ha => simp [ha]
  | @markup o => exact List.append_ne_nil_of_left_ne_nil (List.length_pos_iff.mp o.length_mark_pos) _
  | @unfinished o => exact List.append_ne_nil_of_left_ne_nil (List.length_pos_iff.mp o.length_mark_pos) _

theorem next_of_opens {o : Opening} {t : List Char} (h : Opens o (o.mark ++ t)) :
    next (o.mark ++ t) = markup (o.mark ++ t) := by
  obtain ⟨u, hu⟩ := exists_of_opens h
  rw [next, hu]
  exact if_pos rfl

theorem heads_markup (t : List Char) : Heads ('<' :: t) (markup ('<' :: t)).1 (markup ('<' :: t)).2 := by
  have hopens := opens_ofText t
  have hmark := Opening.mark_prefix_ofText t
  generalize Opening.ofText ('<' :: t) = o at hopens hmark
  obtain ⟨r, hr⟩ := hmark
  rw [← hr] at hopens ⊢
  unfold markup
  dsimp only
  rw [ofText_eq_of_opens hopens, List.drop_left]
  cases hs : o.split r with
  | some p => exact .markup hopens (split_eq_some_iff.mp hs)
  | none =>
    refine .unfinished hopens ?_
    intro a b hab
    rw [split_eq_some_iff.mpr hab] at hs
    exact absurd hs (by simp)

theorem heads_run {c : Char} {t : List Char} (hc : c ≠ '<') :
    Heads (c :: t) (run (c :: t)).1 (run (c :: t)).2 := by
  have hne : (c :: t).takeWhile (· != '<') ≠ [] := by simp [hc]
  have hmem : '<' ∉ (c :: t).takeWhile (· != '<') := by
    intro h
    simpa using List.mem_takeWhile_imp h
  have hrest : (c :: t).dropWhile (· != '<') = [] ∨ ['<'] <+: (c :: t).dropWhile (· != '<') := by
    cases hd : (c :: t).dropWhile (· != '<') with
    | nil => exact .inl rfl
    | cons d u =>
      have := List.head_dropWhile_not (p := (· != '<')) (l := c :: t) (by simp [hd])
      simp only [hd, List.head_cons, bne_eq_false_iff_eq] at this
      exact .inr ⟨u, by rw [this]; rfl⟩
  have := Heads.run hne hmem hrest
  rwa [List.takeWhile_append_dropWhile] at this

theorem heads_next {t : List Char} (h : t ≠ []) : Heads t (next t).1 (next t).2 := by
  obtain ⟨c, u, rfl⟩ := List.exists_cons_of_ne_nil h
  unfold next
  split_ifs with hc
  · rw [List.head?_cons, Option.some.injEq] at hc
    rw [hc]
    exact heads_markup u
  · exact heads_run (by simpa using hc)

/-- A text has no token at its beginning but the one that `next` gives. -/
theorem Heads.next_eq {t rest : List Char} {k : Token} (h : Heads t k rest) : next t = (k, rest) := by
  cases h with
  | @run a _ ha hmem hrest =>
    obtain ⟨c, u, rfl⟩ := List.exists_cons_of_ne_nil ha
    have hc : ¬ (c :: u ++ rest).head? = some '<' := by
      rw [List.cons_append, List.head?_cons, Option.some.injEq]
      exact ne_of_mem_of_not_mem List.mem_cons_self hmem
    obtain ⟨htake, hdrop⟩ := takeWhile_lt_append hmem hrest
    unfold next Token.run
    rw [if_neg hc, htake, hdrop]
  | @markup o t a b hopens hends =>
    rw [next_of_opens hopens]
    unfold Token.markup
    dsimp only
    rw [ofText_eq_of_opens hopens, List.drop_left, split_eq_some_iff.mpr hends]
  | @unfinished o t hopens hends =>
    have hs : o.split t = none := by
      rw [Option.eq_none_iff_forall_ne_some]
      exact fun p hp => hends p.1 p.2 (split_eq_some_iff.mp hp)
    rw [next_of_opens hopens]
    unfold Token.markup
    dsimp only
    rw [ofText_eq_of_opens hopens, List.drop_left, hs]

theorem lex_of_heads {t rest : List Char} {k : Token} (h : Heads t k rest) :
    lex t = k :: lex rest := by
  rw [lex, dif_neg h.ne_nil]
  dsimp only
  rw [h.next_eq]

/-- **A text has exactly one tokenisation**, the one that `lex` finds. -/
theorem tokenises_iff {t : List Char} {ks : List Token} : Tokenises t ks ↔ lex t = ks := by
  constructor
  · intro h
    induction h with
    | nil => rw [lex, dif_pos rfl]
    | cons hk _ ih => rw [lex_of_heads hk, ih]
  · rintro rfl
    fun_induction lex t with
    | case1 => exact .nil
    | case2 t h _ ih => exact .cons (heads_next h) ih

end Token

end XmlLocate
