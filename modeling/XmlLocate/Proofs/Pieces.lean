import XmlLocate.Proofs.Forest
import XmlLocate.Proofs.Lockstep

/-!
# Texts that are cut short

Where a token ends is decided by what stands before its end. So the first part of a text has the tokens
of the text, up to the one in which it was cut.

* `Token.Tokenises.replace`: first tokens stay what they are, whatever part of the text follows them.
* `Token.Heads.exists_unfinished`: what is left of a token that was cut is one unfinished token. It need
  not be of the same form: `<!-` no longer begins a comment.
-/

namespace XmlLocate

/-! ## Ends do not depend on what is cut off -/

theorem Earliest.of_append {P P' : List Char → List Char → Prop} {a b r : List Char}
    (h : Earliest P' a (b ++ r)) (hP : ∀ a b, P a b ↔ P' a (b ++ r)) : Earliest P a b := by
  refine ⟨(hP a b).mpr h.1, ?_⟩
  intro a' b' hp
  exact h.2 a' (b' ++ r) ((hP a' b').mp hp)

theorem append_mark_eq_iff {a m b t r : List Char} : a ++ m ++ b = t ↔ a ++ m ++ (b ++ r) = t ++ r := by
  rw [← List.append_assoc _ b, List.append_left_inj]

theorem FirstAt.of_append {mark t a b r : List Char} (h : FirstAt mark (t ++ r) a (b ++ r)) :
    FirstAt mark t a b :=
  Earliest.of_append h fun _ _ => append_mark_eq_iff

theorem TagEnd.of_append {quote : Option Char} {t a b r : List Char}
    (h : TagEnd quote (t ++ r) a (b ++ r)) : TagEnd quote t a b :=
  Earliest.of_append h fun _ _ => and_congr_left' append_mark_eq_iff

theorem TagEnd.append {quote : Option Char} {t a b : List Char} (h : TagEnd quote t a b)
    (r : List Char) : TagEnd quote (t ++ r) a (b ++ r) := by
  obtain ⟨⟨rfl, hquote⟩, hmin⟩ := h
  refine ⟨⟨by simp, hquote⟩, ?_⟩
  rintro a' b' ⟨he, hquote'⟩
  by_contra hlt
  -- An earlier end stands in the text without `r`.
  have hpre : a' ++ ['>'] <+: a ++ ['>'] := by
    refine List.prefix_of_prefix_length_le ⟨b', he⟩ ⟨b ++ r, by simp⟩ ?_
    simp only [List.length_append, List.length_singleton]
    omega
  obtain ⟨u, hu⟩ := hpre
  refine hlt (hmin a' (u ++ b) ⟨?_, hquote'⟩)
  rw [← List.append_assoc, hu]

theorem DeclarationEnd.of_append {d : Nat} {a b r : List Char} (h : DeclarationEnd d a (b ++ r)) :
    DeclarationEnd d a b := by
  generalize hb : b ++ r = b' at h
  induction h with
  | here => exact .here b
  | quoted hq hs _ ih => exact .quoted hq hs (ih hb)
  | @block d o s a b' hd ho hfirst _ ih =>
    subst hb
    refine .block hd ho (FirstAt.of_append (r := r) ?_) (ih rfl)
    simpa using hfirst
  | @other d c a b' hq hend hblock _ ih =>
    subst hb
    refine .other hq hend (fun hd o ho hp => hblock hd o ho ?_) (ih rfl)
    exact hp.trans ⟨r, by simp⟩

theorem Ends.of_append {o : Opening} {t a b r : List Char} (h : Ends o (t ++ r) a (b ++ r)) :
    Ends o t a b := by
  cases o with
  | declaration =>
    obtain ⟨he, h⟩ := h
    rw [← List.append_assoc] at he
    exact ⟨List.append_cancel_right he, h.of_append⟩
  | startTag => exact TagEnd.of_append h
  | closeTag | instruction | comment | cdata => exact FirstAt.of_append h

theorem Ends.append {o : Opening} {t a b : List Char} (h : Ends o t a b) (r : List Char) :
    Ends o (t ++ r) a (b ++ r) := by
  cases o with
  | declaration =>
    obtain ⟨rfl, h⟩ := h
    exact ⟨by simp, h.append r⟩
  | startTag => exact TagEnd.append h r
  | closeTag | instruction | comment | cdata => exact FirstAt.append h r

theorem Ends.unique {o : Opening} {t a b a' b' : List Char} (h : Ends o t a b)
    (h' : Ends o t a' b') : a = a' ∧ b = b' := by
  have := (split_eq_some_iff.mpr h).symm.trans (split_eq_some_iff.mpr h')
  exact Prod.mk.inj (Option.some.inj this)

theorem Ends.eq {o : Opening} {t a b : List Char} (h : Ends o t a b) : a ++ o.close ++ b = t :=
  Opening.split_eq (split_eq_some_iff.mpr h)

/-- What a text opens, it opens when it is cut behind the mark. -/
theorem Opens.of_append {o : Opening} {t r : List Char} (h : Opens o (t ++ r)) (hm : o.mark <+: t) :
    Opens o t := by
  have hmore : ∀ {m : List Char}, ¬ m <+: t ++ r → ¬ m <+: t := fun hn hp =>
    hn (hp.trans (List.prefix_append _ _))
  cases o with
  | declaration => exact ⟨hm, hmore h.2.1, hmore h.2.2⟩
  | startTag => exact ⟨hm, hmore h.2.1, hmore h.2.2.1, hmore h.2.2.2⟩
  | closeTag | instruction | comment | cdata => exact hm

/-! ## First tokens -/

namespace Token

/-- A token stays what it is if less follows it, but text must be followed by something. -/
theorem Heads.of_append {t rest r : List Char} {k : Token} (h : Heads (t ++ r) k (rest ++ r))
    (hk : k.form = .text → rest ≠ [] ∨ r = []) : Heads t k rest := by
  generalize ht : t ++ r = t' at h
  generalize hr : rest ++ r = rest' at h
  cases h with
  | @run a _ ha hlt hrest =>
    subst hr
    rw [← List.append_assoc] at ht
    obtain rfl := List.append_cancel_right ht
    rcases hk rfl with hne | rfl
    · obtain ⟨c, rest, rfl⟩ := List.exists_cons_of_ne_nil hne
      have hbegins : ['<'] <+: c :: rest := by
        rcases hrest with h | h
        · exact absurd h (by simp)
        · rw [List.cons_append, List.cons_prefix_cons] at h
          exact List.cons_prefix_cons.mpr ⟨h.1, List.nil_prefix⟩
      exact .run ha hlt (.inr hbegins)
    · rw [List.append_nil] at hrest ⊢
      exact .run ha hlt hrest
  | @markup o u a _ hopens hends =>
    subst hr
    have hu := hends.eq
    obtain rfl : o.mark ++ (a ++ o.close ++ rest) = t := by
      rw [← hu] at ht
      have happend : o.mark ++ (a ++ o.close ++ rest) ++ r = t ++ r := by
        rw [ht]
        simp
      exact List.append_cancel_right happend
    have hu' : u = a ++ o.close ++ rest ++ r := by rw [← hu]; simp
    rw [hu'] at hends hopens
    rw [← List.append_assoc] at hopens
    exact .markup (hopens.of_append (List.prefix_append _ _)) hends.of_append
  | @unfinished o u hopens hends =>
    obtain ⟨rfl, rfl⟩ := List.append_eq_nil_iff.mp hr
    rw [List.append_nil] at ht
    rw [ht]
    exact .unfinished hopens hends

/-- **First tokens stay what they are** when a part of what follows them is left. -/
theorem Tokenises.replace {xs ys zs : List Token} {u r : List Char}
    (h : Tokenises (xs.flatMap Token.text ++ u ++ r) (xs ++ ys)) (hz : Tokenises u zs)
    (hu : u ≠ [] ∨ r = [] ∨ ∀ k ∈ xs.getLast?, k.form ≠ .text) :
    Tokenises (xs.flatMap Token.text ++ u) (xs ++ zs) := by
  generalize ht : xs.flatMap Token.text ++ u ++ r = t at h
  induction xs generalizing t with
  | nil => exact hz
  | cons k xs ih =>
    cases h with
    | @cons _ rest _ _ hk hks =>
      have hrest : xs.flatMap Token.text ++ u ++ r = rest := by
        have happend : k.text ++ (xs.flatMap Token.text ++ u ++ r) = k.text ++ rest := by
          rw [hk.text_append, ← ht]
          simp
        exact List.append_cancel_left happend
      have hlast : u ≠ [] ∨ r = [] ∨ ∀ j ∈ xs.getLast?, j.form ≠ .text := by
        refine hu.imp_right (Or.imp_right fun h j hj => h j ?_)
        rw [List.getLast?_cons, Option.mem_def.mp hj]
        rfl
      have htext : k.form = .text → xs.flatMap Token.text ++ u ≠ [] ∨ r = [] := by
        intro hform
        cases xs with
        | nil =>
          rcases hu with hu | hr | hlast
          · exact .inl (by simpa using hu)
          · exact .inr hr
          · exact absurd hform (hlast k rfl)
        | cons j xs =>
          cases hks with
          | cons hj => exact .inl (by simp [hj.text_ne_nil])
      rw [List.flatMap_cons, List.append_assoc]
      refine .cons (Heads.of_append (r := r) ?_ htext) (ih hlast _ hrest hks)
      rw [← hrest] at hk
      rwa [List.append_assoc, hk.text_append]

/-! ## Tokens that are cut -/

theorem gt_mem_close (o : Opening) : '>' ∈ o.close := by
  cases o <;> decide

/-- Markup without a `>` has no end. -/
theorem heads_of_notMem {u : List Char} (hlt : ['<'] <+: u) (hgt : '>' ∉ u) :
    Heads u ⟨(Opening.ofText u).form [], u, false⟩ [] := by
  obtain ⟨t, rfl⟩ := hlt
  have hopens := opens_ofText t
  have hmark := Opening.mark_prefix_ofText t
  rw [List.singleton_append] at hgt ⊢
  generalize Opening.ofText ('<' :: t) = o at hopens hmark ⊢
  obtain ⟨r, hr⟩ := hmark
  rw [← hr] at hopens hgt ⊢
  refine .unfinished hopens ?_
  intro a b hends
  rw [← hends.eq] at hgt
  exact hgt (by simp [gt_mem_close])

/-- A part of a mark opens a start tag or a declaration, which has no end. -/
theorem heads_of_mark_prefix {o : Opening} {u : List Char} (hp : u <+: o.mark) (hu : u ≠ [])
    (hne : u ≠ o.mark) : ∃ k, Heads u k [] ∧ k.complete = false ∧
      (k.form = .startTag ∨ k.form = .declaration) := by
  have key : ∀ u ∈ o.mark.inits, u ≠ [] → u ≠ o.mark → ['<'].isPrefixOf u ∧ '>' ∉ u ∧
      (Opening.ofText u = .startTag ∨ Opening.ofText u = .declaration) := by
    cases o <;> decide
  obtain ⟨hlt, hgt, ho⟩ := key u ((List.mem_inits _ _).mpr hp) hu hne
  refine ⟨_, heads_of_notMem (List.isPrefixOf_iff_prefix.mp hlt) hgt, rfl, ?_⟩
  rcases ho with ho | ho
  · exact .inl (by rw [ho]; rfl)
  · exact .inr (by rw [ho]; rfl)

/-- Markup that is cut before its end. -/
theorem heads_of_cut {o : Opening} {t u r : List Char} (ho : Opens o (o.mark ++ t))
    (ht : o.mark ++ t = u ++ r) (hu : u ≠ []) (hr : ∀ x a b, t = x ++ r → ¬ Ends o t a (b ++ r)) :
    ∃ j, Heads u j [] ∧ j.complete = false ∧
      (j.form = o.form [] ∨ j.form = .startTag ∨ j.form = .declaration) := by
  by_cases hp : o.mark <+: u
  · obtain ⟨x, rfl⟩ := hp
    obtain rfl : t = x ++ r := List.append_cancel_left (ht.trans (List.append_assoc ..))
    rw [ht] at ho
    refine ⟨⟨o.form [], o.mark ++ x, false⟩, ?_, rfl, .inl rfl⟩
    exact .unfinished (ho.of_append (List.prefix_append _ _)) fun a b h => hr x a b rfl (h.append r)
  · have hu' : u <+: o.mark :=
      (List.prefix_or_prefix_of_prefix ⟨r, ht.symm⟩ (List.prefix_append _ t)).resolve_right hp
    have hne : u ≠ o.mark := by
      rintro rfl
      exact hp List.prefix_rfl
    obtain ⟨j, hj, hc, hf⟩ := heads_of_mark_prefix hu' hu hne
    exact ⟨j, hj, hc, .inr hf⟩

/-- The forms of the tokens that must not be cut. -/
def mustEnd : List TokenForm := [.startTag, .emptyTag, .declaration]

theorem form_of_mem_mustEnd {o : Opening} {b : List Char} (h : o.form b ∈ mustEnd) :
    o.form [] = .startTag ∨ o.form [] = .declaration := by
  cases o <;> simp_all [Opening.form, mustEnd]

/-- **What is left of a token that is cut** is one token, which has no end. -/
theorem Heads.exists_unfinished {t rest u w : List Char} {k : Token} (h : Heads t k rest)
    (hk : k.text = u ++ w) (hu : u ≠ []) (hw : w ≠ [] ∨ k.form = .text) :
    ∃ j, Heads u j [] ∧ j.complete = false ∧
      (k.form ∈ mustEnd → j.form = .startTag ∨ j.form = .declaration) := by
  cases h with
  | @run a b ha hlt hb =>
    have hlt' : '<' ∉ u := by
      intro hmem
      rw [show a = u ++ w from hk] at hlt
      exact hlt (List.mem_append_left _ hmem)
    have hheads := Heads.run hu hlt' (.inl rfl)
    rw [List.append_nil] at hheads
    exact ⟨_, hheads, rfl, by simp [mustEnd]⟩
  | @markup o t a b hopens hends =>
    have hw : w ≠ [] := by
      refine hw.resolve_right ?_
      cases o <;> simp only [Opening.form] <;> try split_ifs
      all_goals simp
    have ht : o.mark ++ t = u ++ (w ++ rest) := by
      have hk : o.mark ++ a ++ o.close = u ++ w := hk
      rw [← hends.eq, ← List.append_assoc, ← List.append_assoc, hk, List.append_assoc]
    obtain ⟨j, hj, hc, hf⟩ := heads_of_cut hopens ht hu fun x a' b' _ hends' => by
      have := congrArg List.length (hends.unique hends').2
      have := List.length_pos_iff.mpr hw
      simp only [List.length_append] at *
      omega
    refine ⟨j, hj, hc, fun hform => hf.elim (fun h => ?_) id⟩
    rw [h]
    exact form_of_mem_mustEnd hform
  | @unfinished o t hopens hends =>
    obtain ⟨j, hj, hc, hf⟩ := heads_of_cut hopens hk hu fun x a b _ h => hends a _ h
    refine ⟨j, hj, hc, fun hform => hf.elim (fun h => ?_) id⟩
    rw [h]
    exact form_of_mem_mustEnd hform

end Token

/-! ## Spans of the last tokens -/

theorem start_of_mem_spansOf {ks : List Token} {sequence offset : Nat} {s : Span}
    (hs : s ∈ spansOf sequence offset ks) : offset ≤ s.start := by
  induction ks generalizing sequence offset with
  | nil => simp [spansOf] at hs
  | cons k ks ih =>
    rw [spansOf] at hs
    cases hk : k.kind? with
    | none =>
      rw [hk] at hs
      have := ih hs
      omega
    | some kind =>
      rw [hk] at hs
      rcases List.mem_cons.mp hs with rfl | hs
      · exact Nat.le_refl _
      · have := ih hs
        omega

/-- A span of tokens is that of the first one, or begins behind it. -/
theorem mem_spansOf_cons {k : Token} {ks : List Token} {sequence offset : Nat} {s : Span}
    (hs : s ∈ spansOf sequence offset (k :: ks)) :
    (k.kind? = some s.kind ∧ s.start = offset) ∨ offset + k.length ≤ s.start := by
  rw [spansOf] at hs
  cases hk : k.kind? with
  | none =>
    rw [hk] at hs
    exact .inr (start_of_mem_spansOf hs)
  | some kind =>
    rw [hk] at hs
    rcases List.mem_cons.mp hs with rfl | hs
    · exact .inl ⟨rfl, rfl⟩
    · exact .inr (start_of_mem_spansOf hs)

end XmlLocate
