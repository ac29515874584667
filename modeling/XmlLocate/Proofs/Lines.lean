import XmlLocate.Proofs.Forest

/-!
# Line tables of growing texts

A scan makes its line table token by token and answers from what it has so far. This file says why
that does no harm.

* `LineTable.extend_extend`: a table may be made in pieces, if no piece ends between a carriage return
  and its line feed.
* `Token.Tokenises.linesAfter_eq`: no token ends there, so the table of the tokens is that of the text.
* `lineOf_eq_iff`: a lookup finds the last line that begins at or before an offset.
* `ScanError.ofOffset_extend`: what follows an offset in the text does not change its line and column,
  so a table that reaches as far as the offset is enough for both.
-/

namespace XmlLocate

/-! ## Tables in pieces -/

/-- The place between two texts is inside a line terminator. -/
def SplitsPair (a b : List Char) : Prop := a.getLast? = some '\r' ∧ b.head? = some '\n'

theorem SplitsPair.of_cons {c : Char} {a b : List Char} (h : SplitsPair a b) :
    SplitsPair (c :: a) b := by
  refine ⟨?_, h.2⟩
  rw [List.getLast?_cons, h.1, Option.getD_some]

theorem not_splitsPair_nil_left (b : List Char) : ¬ SplitsPair [] b := by
  intro h
  simpa using h.1

theorem not_splitsPair_of_concat {c : Char} (hc : c ≠ '\r') (a b : List Char) :
    ¬ SplitsPair (a ++ [c]) b := by
  intro h
  have := h.1
  rw [List.getLast?_concat, Option.some.injEq] at this
  exact hc this

theorem not_splitsPair_of_cons {c : Char} (hc : c ≠ '\n') (a b : List Char) :
    ¬ SplitsPair a (c :: b) := by
  intro h
  have := h.2
  rw [List.head?_cons, Option.some.injEq] at this
  exact hc this

theorem lineBreaks_pair (base : Nat) (t : List Char) :
    lineBreaks base ('\r' :: '\n' :: t) = (base + 2) :: lineBreaks (base + 2) t := by
  rw [lineBreaks]

theorem lineBreaks_cons {c : Char} {t : List Char} (h : ¬ SplitsPair [c] t) (base : Nat) :
    lineBreaks base (c :: t) =
      (if c = '\n' ∨ c = '\r' then [base + 1] else []) ++ lineBreaks (base + c.utf8Size) t := by
  have hpair : ∀ u, c = '\r' → t = '\n' :: u → False := by
    rintro u rfl rfl
    exact h ⟨rfl, rfl⟩
  rw [lineBreaks.eq_3 _ _ _ hpair]
  split_ifs with hc
  · have hsize : c.utf8Size = 1 := by
      rcases hc with rfl | rfl <;> rfl
    rw [hsize]
    rfl
  · rfl

theorem lineBreaks_append {a b : List Char} (h : ¬ SplitsPair a b) (base : Nat) :
    lineBreaks base (a ++ b) = lineBreaks base a ++ lineBreaks (base + byteLength a) b := by
  fun_induction lineBreaks base a with
  | case1 base => rfl
  | case2 base a ih =>
    have h' : ¬ SplitsPair a b := by
      intro hs
      exact h hs.of_cons.of_cons
    rw [List.cons_append, List.cons_append, lineBreaks_pair, ih h', byteLength_cons,
      byteLength_cons, List.cons_append, ← Nat.add_assoc, ← Nat.add_assoc]
    rfl
  | case3 base c a hpair hc ih =>
    have h' : ¬ SplitsPair a b := by
      intro hs
      exact h hs.of_cons
    have hcons : ¬ SplitsPair [c] (a ++ b) := by
      rintro ⟨hr, hn⟩
      obtain rfl : c = '\r' := by simpa using hr
      cases a with
      | nil => exact h ⟨rfl, hn⟩
      | cons d a =>
        obtain rfl : d = '\n' := by simpa using hn
        exact hpair a rfl rfl
    have hsize : c.utf8Size = 1 := by
      rcases hc with rfl | rfl <;> rfl
    rw [List.cons_append, lineBreaks_cons hcons, if_pos hc, hsize, ih h', byteLength_cons, hsize,
      Nat.add_assoc]
    rfl
  | case4 base c a hpair hc ih =>
    have h' : ¬ SplitsPair a b := by
      intro hs
      exact h hs.of_cons
    have hcons : ¬ SplitsPair [c] (a ++ b) := by
      rintro ⟨hr, -⟩
      exact hc (.inr (by simpa using hr))
    rw [List.cons_append, lineBreaks_cons hcons, if_neg hc, ih h', byteLength_cons, Nat.add_assoc]
    rfl

namespace LineTable

theorem eq_of_starts {l l' : LineTable} (hs : l.starts = l'.starts) (hl : l.length = l'.length) :
    l = l' := by
  cases l
  cases l'
  cases hs
  cases hl
  rfl

theorem length_ofText (t : List Char) : (ofText t).length = byteLength t := Nat.zero_add _

theorem getElem?_ofText (t : List Char) (i : Nat) :
    (ofText t).starts[i]? = (0 :: lineBreaks 0 t)[i]? := by
  show (#[0] ++ lineBreaks 0 t)[i]? = _
  rw [← Array.getElem?_toList, Array.toList_appendList]
  rfl

@[simp] theorem extend_nil (l : LineTable) : l.extend [] = l := by
  apply eq_of_starts
  · show l.starts ++ [] = l.starts
    simp
  · rfl

theorem extend_extend {a b : List Char} (h : ¬ SplitsPair a b) (l : LineTable) :
    (l.extend a).extend b = l.extend (a ++ b) := by
  apply eq_of_starts
  · show l.starts ++ lineBreaks l.length a ++ lineBreaks (l.length + byteLength a) b =
      l.starts ++ lineBreaks l.length (a ++ b)
    apply Array.ext'
    rw [lineBreaks_append h]
    simp only [Array.toList_appendList, List.append_assoc]
  · show l.length + byteLength a + byteLength b = l.length + byteLength (a ++ b)
    rw [byteLength_append, Nat.add_assoc]

end LineTable

/-! ## Tables of tokens -/

/-- Between a token and what follows it there is the `>` of the one or the `<` of the other. -/
theorem Token.Heads.not_splitsPair {t rest : List Char} {k : Token} (h : Heads t k rest) :
    ¬ SplitsPair k.text rest := by
  cases h with
  | run _ _ hrest =>
    rcases hrest with rfl | ⟨b, rfl⟩
    · intro h
      simpa using h.2
    · exact not_splitsPair_of_cons (by decide) _ _
  | @markup o _ a =>
    obtain ⟨u, hu⟩ : ['>'] <:+ o.close := by cases o <;> decide
    show ¬ SplitsPair (o.mark ++ a ++ o.close) rest
    rw [← hu, ← List.append_assoc]
    exact not_splitsPair_of_concat (by decide) _ _
  | unfinished =>
    intro h
    simpa using h.2

theorem Token.Tokenises.linesAfter_eq {t : List Char} {ks : List Token} (h : Tokenises t ks)
    (l : LineTable) : linesAfter l ks = l.extend t := by
  induction h generalizing l with
  | nil => rw [linesAfter_nil, LineTable.extend_nil]
  | cons hk _ ih =>
    rw [linesAfter_cons, ih, LineTable.extend_extend hk.not_splitsPair, hk.text_append]

/-! ## Lookups -/

namespace LineTable

/-- The line `i` is the last that begins at `x` or before. -/
def IsLineAt (l : LineTable) (x i : Nat) : Prop :=
  (∃ s ∈ l.starts[i]?, s ≤ x) ∧ ∀ j, i < j → ∀ s ∈ l.starts[j]?, x < s

theorem IsLineAt.unique {l : LineTable} {x i j : Nat} (hi : l.IsLineAt x i) (hj : l.IsLineAt x j) :
    i = j := by
  -- Of two lines with this property neither can be the later one.
  have key : ∀ {i j : Nat}, l.IsLineAt x i → l.IsLineAt x j → ¬ i < j := by
    intro i j hi hj hij
    obtain ⟨s, hs, hle⟩ := hj.1
    have := hi.2 j hij s hs
    omega
  have := key hi hj
  have := key hj hi
  omega

theorem starts_lt {l : LineTable} {i j s s' : Nat} (hij : i < j) (hs : l.starts[i]? = some s)
    (hs' : l.starts[j]? = some s') : s < s' := by
  have h := List.pairwise_iff_getElem.mp l.increasing
  obtain ⟨hi, rfl⟩ := Array.getElem?_eq_some_iff.mp hs
  obtain ⟨hj, rfl⟩ := Array.getElem?_eq_some_iff.mp hs'
  exact h i j hi hj hij

theorem isLineAt_lastAtMost {l : LineTable} {x lo hi : Nat} {h : hi ≤ l.starts.size} (hlo : lo < hi)
    (hle : ∃ s ∈ l.starts[lo]?, s ≤ x) (hgt : ∀ j, hi ≤ j → ∀ s ∈ l.starts[j]?, x < s) :
    l.IsLineAt x (lastAtMost l.starts x lo hi h) := by
  fun_induction lastAtMost l.starts x lo hi h with
  | case1 lo hi h _ hmid hx ih =>
    refine ih (by omega) ⟨_, Array.getElem?_eq_getElem hmid, hx⟩ hgt
  | case2 lo hi h _ hmid hx ih =>
    refine ih (by omega) hle ?_
    intro j hj s hs
    rcases Nat.lt_or_ge ((lo + hi) / 2) j with hlt | hge
    · have := starts_lt hlt (Array.getElem?_eq_getElem hmid) hs
      omega
    · obtain rfl : j = (lo + hi) / 2 := by omega
      obtain rfl := Option.some.inj ((Array.getElem?_eq_getElem hmid).symm.trans hs)
      omega
  | case3 lo hi h hlt =>
    refine ⟨hle, ?_⟩
    intro j hj
    exact hgt j (by omega)

/-- **A lookup finds the last line that begins at an offset or before.** -/
theorem lineOf_eq_iff {l : LineTable} {offset i : Nat} :
    l.lineOf offset = i ↔ l.IsLineAt (min offset l.length) i := by
  have h : l.IsLineAt (min offset l.length) (l.lineOf offset) := by
    refine isLineAt_lastAtMost l.size_pos ⟨0, l.first, Nat.zero_le _⟩ ?_
    intro j hj s hs
    rw [Array.getElem?_eq_none hj] at hs
    exact absurd hs (by simp)
  constructor
  · rintro rfl
    exact h
  · exact h.unique

theorem columnOf_eq {l : LineTable} {offset s : Nat} (hs : l.starts[l.lineOf offset]? = some s) :
    l.columnOf offset = min offset l.length - s := by
  obtain ⟨-, rfl⟩ := Array.getElem?_eq_some_iff.mp hs
  rfl

theorem getElem?_extend {l : LineTable} {i s : Nat} (t : List Char) (hs : l.starts[i]? = some s) :
    (l.extend t).starts[i]? = some s := by
  obtain ⟨hi, -⟩ := Array.getElem?_eq_some_iff.mp hs
  show (l.starts ++ lineBreaks l.length t)[i]? = some s
  rw [← Array.getElem?_toList, Array.toList_appendList, List.getElem?_append_left hi,
    Array.getElem?_toList, hs]

/-- What is put behind a text begins no line at an offset of the text. -/
theorem IsLineAt.extend {l : LineTable} {x i : Nat} (h : l.IsLineAt x i) (hx : x ≤ l.length)
    (t : List Char) : (l.extend t).IsLineAt x i := by
  obtain ⟨⟨s, hs, hle⟩, hlater⟩ := h
  refine ⟨⟨s, getElem?_extend t hs, hle⟩, ?_⟩
  intro j hj s' hs'
  rcases Nat.lt_or_ge j l.starts.size with hlt | hge
  · have hget := getElem?_extend t (Array.getElem?_eq_getElem hlt)
    obtain rfl := Option.some.inj (hget.symm.trans hs')
    exact hlater j hj _ (Array.getElem?_eq_getElem hlt)
  · have hmem : s' ∈ lineBreaks l.length t := by
      have hs' : (l.starts ++ lineBreaks l.length t)[j]? = some s' := hs'
      rw [← Array.getElem?_toList, Array.toList_appendList,
        List.getElem?_append_right (by simpa using hge)] at hs'
      exact List.mem_of_getElem? hs'
    exact Nat.lt_of_le_of_lt hx (lt_of_mem_lineBreaks hmem)

variable {l : LineTable} {offset : Nat}

theorem min_extend (h : offset ≤ l.length) (t : List Char) :
    min offset (l.extend t).length = min offset l.length := by
  have : (l.extend t).length = l.length + byteLength t := rfl
  omega

theorem lineOf_extend (h : offset ≤ l.length) (t : List Char) :
    (l.extend t).lineOf offset = l.lineOf offset := by
  rw [lineOf_eq_iff, min_extend h]
  exact (lineOf_eq_iff.mp rfl).extend (Nat.min_le_right _ _) t

theorem columnOf_extend (h : offset ≤ l.length) (t : List Char) :
    (l.extend t).columnOf offset = l.columnOf offset := by
  obtain ⟨s, hs, -⟩ := (lineOf_eq_iff.mp (rfl : l.lineOf offset = _)).1
  have hs' : (l.extend t).starts[(l.extend t).lineOf offset]? = some s := by
    rw [lineOf_extend h]
    exact getElem?_extend t hs
  rw [columnOf_eq hs, columnOf_eq hs', min_extend h]

end LineTable

theorem ScanError.ofOffset_extend {l : LineTable} {offset : Nat} (h : offset ≤ l.length)
    (t : List Char) (cause : Cause) :
    ofOffset (l.extend t) offset cause = ofOffset l offset cause := by
  rw [ofOffset, ofOffset, LineTable.lineOf_extend h, LineTable.columnOf_extend h]

/-- At a failure the lines are known as far as the token that causes it, which is far enough. -/
theorem Assembly.ofOffset_offset (a : Assembly) (t : List Char) (cause : ScanError.Cause) :
    ScanError.ofOffset (a.lines.extend t) a.offset cause = .ofOffset a.lines a.offset cause :=
  ScanError.ofOffset_extend (Nat.le_refl _) t cause

end XmlLocate
