import XmlLocate.Proofs.OwnTags
import XmlLocate.Proofs.Pieces
import XmlLocate.Proofs.Verdict

/-!
# Truncated texts are not accepted

**Theorem (`scan_truncated`).** If a text can be scanned, the part of it up to any place inside an
element or a declaration cannot: something is unfinished there.

The cut goes through one token (`exists_cut`). The tokens before it stay, and what is left of it is a
token without an end (`Token.Heads.exists_unfinished`), unless it was cut at its very end. Behind the
tokens that stay some elements are open (`exists_openAfter`). If there are none, these tokens are
balanced and have their own spans, so the construct that was cut begins at the cut token
(`closed_or_begins`), and its head has no end. Otherwise whatever the cut has left closes nothing.
-/

namespace XmlLocate

/-! ## First parts of a text -/

theorem exists_of_takeBytes? {n : Nat} {t u : List Char} (h : takeBytes? n t = some u) :
    byteLength u = n ∧ u <+: t := by
  fun_induction takeBytes? n t generalizing u with
  | case1 =>
    obtain rfl := Option.some.inj h
    exact ⟨rfl, List.nil_prefix⟩
  | case2 => simp at h
  | case3 n c t hc ih =>
    obtain ⟨u, hu, rfl⟩ := Option.map_eq_some_iff.mp h
    obtain ⟨hlen, hpre⟩ := ih hu
    refine ⟨?_, List.cons_prefix_cons.mpr ⟨rfl, hpre⟩⟩
    rw [byteLength_cons, hlen]
    omega
  | case4 => simp at h

/-- The first part of a text up to an offset. -/
theorem prefix_of_slice? {source t : List Char} {k : Nat} (h : slice? source 0 k = some t) :
    byteLength t = k ∧ t <+: source := by
  rw [slice?, if_pos (Nat.zero_le k), dropBytes?.eq_def] at h
  exact exists_of_takeBytes? h

/-- A cut goes through one of the tokens, or along its end. -/
theorem exists_cut {ks : List Token} {t r : List Char} (h : ks.flatMap Token.text = t ++ r)
    (ht : t ≠ []) : ∃ before k behind u w, ks = before ++ k :: behind ∧ k.text = u ++ w ∧ u ≠ [] ∧
      t = before.flatMap Token.text ++ u := by
  induction ks generalizing t with
  | nil =>
    rw [List.flatMap_nil] at h
    exact absurd (List.append_eq_nil_iff.mp h.symm).1 ht
  | cons k ks ih =>
    rw [List.flatMap_cons] at h
    rcases List.append_eq_append_iff.mp h with ⟨t, rfl, hks⟩ | ⟨w, hk, -⟩
    · by_cases hnil : t = []
      · subst hnil
        rw [List.append_nil] at ht ⊢
        exact ⟨[], k, ks, k.text, [], rfl, by simp, ht, rfl⟩
      · obtain ⟨before, j, behind, u, w, rfl, hj, hu, rfl⟩ := ih hks hnil
        exact ⟨k :: before, j, behind, u, w, rfl, hj, hu, by simp⟩
    · exact ⟨[], k, ks, t, w, rfl, hk, ht, rfl⟩

/-! ## Balanced tokens that are cut -/

/-- The first ones of balanced tokens close nothing but what they open. -/
theorem exists_openAfter {xs ys : List Token} (h : Balanced (xs ++ ys)) : ∃ os, OpenAfter xs os := by
  induction xs using List.reverseRecOn generalizing ys with
  | nil => exact ⟨[], .balanced .nil⟩
  | append_singleton xs k ih =>
    rw [List.append_assoc, List.singleton_append] at h
    obtain ⟨os, hos⟩ := ih h
    rcases k.leaf_or_tag with hk | hk | hk | ⟨hc, hf⟩
    · exact ⟨os, hos.append (.leaf hk .nil)⟩
    · exact ⟨lengthOf xs :: os, .start hos hk .nil⟩
    · cases os with
      | cons o os => exact ⟨os, hos.close hk⟩
      | nil =>
        -- A close tag here would be unmatched.
        have hend := (EndsIn.settled h).endingFrom_eq
        have hend' : endingFrom [] 0 (xs ++ k :: ys) = .unmatched (lengthOf xs) :=
          (EndsIn.unmatched hos.balanced_of_nil hk).endingFrom_eq
        exact absurd (hend.symm.trans hend') (by simp)
    · have hform := h.form_of_unfinished (by simp) hc
      rcases hf with hf | hf | hf | hf <;> rw [hf] at hform <;> exact absurd hform (by decide)

/-- Where nothing is open, a construct has ended or not yet begun. -/
theorem closed_or_begins {n : Nat} {xs ys : List Token} (hx : OpenAfter xs [])
    (hf : Fits n 0 (xs ++ ys)) {s : Span} (hs : s ∈ spansOf 0 0 (xs ++ ys)) :
    s.stopIn n ≤ lengthOf xs ∨ ∃ i, s ∈ spansOf i (lengthOf xs) ys := by
  have hb := hx.balanced_of_nil
  rw [spansOf_append hb, List.mem_append, Nat.zero_add, Nat.zero_add] at hs
  rcases hs with hs | hs
  · have := bounds_spansOf hb hf.left hs
    exact .inl (by omega)
  · exact .inr ⟨_, hs⟩

/-! ## Unfinished endings -/

/-- The text ends in a start tag, in a declaration or in an element. -/
def Ending.IsUnfinished : Ending → Prop
  | inDeclaration _ | inHead _ | inElement _ => True
  | unmatched _ | inUnmatched _ | settled => False

theorem Answers.of_isUnfinished {lines : LineTable} {e : Ending} {r : Except ScanError Scan}
    (h : Answers lines e r) (he : e.IsUnfinished) :
    ∃ f, r = .error f ∧ (f.cause = .unterminatedElement ∨ f.cause = .unterminatedDeclaration) := by
  cases e with
  | inDeclaration => exact ⟨_, h, .inr rfl⟩
  | inHead | inElement => exact ⟨_, h, .inl rfl⟩
  | unmatched | inUnmatched | settled => exact he.elim

/-- A token that has no end closes none of the open elements. -/
theorem isUnfinished_of_unfinished {os : List Nat} {offset : Nat} {j : Token} {u : List Char}
    (hj : Token.Heads u j []) (hc : j.complete = false)
    (h : os ≠ [] ∨ j.form = .startTag ∨ j.form = .declaration) :
    (endingFrom os offset [j]).IsUnfinished := by
  rcases j.leaf_or_tag with hleaf | hstart | hclose | ⟨-, hf⟩
  · have hos : os ≠ [] := by
      refine h.resolve_right ?_
      rintro (hf | hf) <;> simp [Token.isLeaf, hf, hc] at hleaf
    obtain ⟨o, os, rfl⟩ := List.exists_cons_of_ne_nil hos
    rw [endingFrom_leaf hleaf]
    trivial
  · simp [Token.isStart, hc] at hstart
  · simp [Token.isClose, hc] at hclose
  · rcases hf with hf | hf | hf | hf
    · rw [endingFrom_unfinished hc (.inl hf), if_neg (by simp [hf])]
      trivial
    · rw [endingFrom_unfinished hc (.inr hf), if_pos hf]
      trivial
    · obtain ⟨o, os, rfl⟩ := List.exists_cons_of_ne_nil (h.resolve_right (by simp [hf]))
      rw [endingFrom_closeTag_cons hf, if_neg (by simp [hc])]
      trivial
    · rw [hj.complete_of_emptyTag hf] at hc
      exact absurd hc (by simp)

theorem isUnfinished_of_openAfter {ks : List Token} {os : List Nat} (h : OpenAfter ks os)
    (hos : os ≠ []) : (endingFrom [] 0 ks).IsUnfinished := by
  obtain ⟨o, os, rfl⟩ := List.exists_cons_of_ne_nil hos
  rw [(EndsIn.inElement h).endingFrom_eq]
  trivial

/-! ## Truncated texts -/

theorem mem_mustEnd_of_kind? {k : Token} {kind : SpanKind} (hk : k.kind? = some kind)
    (hkind : kind = .element ∨ kind = .declaration) : k.form ∈ Token.mustEnd := by
  unfold Token.kind? at hk
  cases hf : k.form <;> rcases hkind with rfl | rfl <;> simp [hf, Token.mustEnd] at hk ⊢

section

variable {n : Nat} {before behind : List Token} {s : Span}

/-- Tokens that are cut off in a span leave something unfinished. -/
theorem isUnfinished_of_cut_between (hb : Balanced (before ++ behind))
    (hf : Fits n 0 (before ++ behind)) (hs : s ∈ spansOf 0 0 (before ++ behind))
    (hstart : s.start < lengthOf before) (hstop : lengthOf before < s.stopIn n) :
    (endingFrom [] 0 before).IsUnfinished := by
  obtain ⟨os, hos⟩ := exists_openAfter hb
  refine isUnfinished_of_openAfter hos ?_
  rintro rfl
  rcases closed_or_begins hos hf hs with hle | ⟨i, hmem⟩
  · omega
  · have := start_of_mem_spansOf hmem
    omega

/-- So does a token that is cut, in an element or a declaration. -/
theorem isUnfinished_of_cut_inside {k j : Token} {u : List Char} (hb : Balanced (before ++ k :: behind))
    (hf : Fits n 0 (before ++ k :: behind)) (hs : s ∈ spansOf 0 0 (before ++ k :: behind))
    (hkind : s.kind = .element ∨ s.kind = .declaration) (hstart : s.start < lengthOf before + k.length)
    (hstop : lengthOf before < s.stopIn n) (hj : Token.Heads u j []) (hc : j.complete = false)
    (hform : k.form ∈ Token.mustEnd → j.form = .startTag ∨ j.form = .declaration) :
    (endingFrom [] 0 (before ++ [j])).IsUnfinished := by
  obtain ⟨os, hos⟩ := exists_openAfter hb
  rw [endingFrom_of_openAfter hos]
  refine isUnfinished_of_unfinished hj hc (or_iff_not_imp_left.mpr fun hnil => hform ?_)
  rw [not_not] at hnil
  subst hnil
  -- Nothing is open before the token, so it is the head of what was cut.
  rcases closed_or_begins hos hf hs with hle | ⟨i, hmem⟩
  · omega
  · rcases mem_spansOf_cons hmem with ⟨hkind?, -⟩ | hle
    · exact mem_mustEnd_of_kind? hkind? hkind
    · omega

end

/-- A text that is cut inside an element or a declaration ends in something unfinished. -/
theorem isUnfinished_of_cut {source t : List Char} (hb : Balanced (Token.lex source))
    (ht : t <+: source) {s : Span} (hs : s ∈ spansOf 0 0 (Token.lex source))
    (hkind : s.kind = .element ∨ s.kind = .declaration) (hstart : s.start < byteLength t)
    (hstop : byteLength t < s.stopIn (byteLength source)) :
    (endingFrom [] 0 (Token.lex t)).IsUnfinished := by
  have htokens := Token.tokenises_iff.mpr (rfl : Token.lex source = _)
  have hfits := fits_lex source
  have htexts := Token.texts_lex source
  generalize Token.lex source = ks at hb hs htokens hfits htexts
  obtain ⟨r, hr⟩ := ht
  have hne : t ≠ [] := by
    rintro rfl
    simp at hstart
  obtain ⟨before, k, behind, u, w, rfl, hk, hu, rfl⟩ := exists_cut (htexts.trans hr.symm) hne
  rw [← hr] at htokens
  have hlen : byteLength (before.flatMap Token.text ++ u) = lengthOf before + byteLength u :=
    byteLength_append _ _
  by_cases hw : w ≠ [] ∨ k.form = .text
  · obtain ⟨_, _, hheads⟩ := htokens.exists_of_mem (k := k) (by simp)
    obtain ⟨j, hj, hc, hform⟩ := hheads.exists_unfinished hk hu hw
    have hlex := Token.tokenises_iff.mp (htokens.replace (.cons hj .nil) (.inl hu))
    have hklen : k.length = byteLength u + byteLength w := by
      rw [Token.length, hk, byteLength_append]
    rw [hlex]
    exact isUnfinished_of_cut_inside hb hfits hs hkind (by omega) (by omega) hj hc hform
  · -- The cut is at the end of the token, which stays.
    push Not at hw
    obtain ⟨rfl, hform⟩ := hw
    obtain rfl : k.text = u := by simpa using hk
    have hsplit : before ++ k :: behind = (before ++ [k]) ++ behind := by simp
    have htext : before.flatMap Token.text ++ k.text = (before ++ [k]).flatMap Token.text ++ [] := by
      simp
    have hlen' : lengthOf (before ++ [k]) = lengthOf before + byteLength k.text := by simp [Token.length]
    rw [hsplit] at hb hs hfits htokens
    rw [hlen] at hstart hstop
    rw [htext] at htokens ⊢
    have hlex := Token.tokenises_iff.mp (htokens.replace .nil (.inr (.inr (by simpa using hform))))
    rw [hlex, List.append_nil]
    exact isUnfinished_of_cut_between hb hfits hs (by omega) (by omega)

/-- **A truncated text is not accepted.** Cut inside an element or a declaration, it has something
unfinished. -/
theorem scan_truncated {source t : List Char} {r : Scan} (h : scan source = .ok r) {s : Span}
    (hs : s ∈ r.spans) (hkind : s.kind = .element ∨ s.kind = .declaration) {k : Nat}
    (ht : slice? source 0 k = some t) (hstart : s.start < k)
    (hstop : k < s.stopIn (byteLength source)) :
    ∃ e, scan t = .error e ∧
      (e.cause = .unterminatedElement ∨ e.cause = .unterminatedDeclaration) := by
  obtain ⟨rfl, hpre⟩ := prefix_of_slice? ht
  obtain ⟨hb, rfl⟩ := scan_eq_ok_iff.mp h
  have hmem := List.mem_toArray.mp hs
  exact (answers_scan t).of_isUnfinished (isUnfinished_of_cut hb hpre hmem hkind hstart hstop)

/-- A cut inside the mark of a CDATA section, which leaves a declaration. -/
theorem truncated_in_mark :
    ∃ e, scan "<a><![CDA".toList = .error e ∧
      (e.cause = .unterminatedElement ∨ e.cause = .unterminatedDeclaration) := by
  have h : scan "<a><![CDATA[x]]></a>".toList = .ok ⟨#[⟨0, .element, 0, some 3, some 20⟩,
      ⟨1, .cdataSection, 3, none, some 16⟩], .ofText "<a><![CDATA[x]]></a>".toList⟩ := by cbv
  have hcut : slice? "<a><![CDATA[x]]></a>".toList 0 9 = some "<a><![CDA".toList := by cbv
  exact scan_truncated (s := ⟨0, .element, 0, some 3, some 20⟩) h (by simp) (.inl rfl) hcut (by decide)
    (by decide)

end XmlLocate
