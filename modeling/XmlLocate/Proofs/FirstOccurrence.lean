import Mathlib.Tactic
import XmlLocate.Token

/-!
# Where a delimiter stands first

The searches of `Text/Search` and `Token` walk through a text and stop at a delimiter. This file
says what they find without walking: among all the ways to cut the text around the delimiter, the
earliest.

* `Earliest` is the earliest cut with a property, of which there is at most one.
* `splitAround_eq_some_iff`: `splitAround` cuts around the first occurrence of a mark.
* `splitTag_eq_some_iff`: `splitTag` cuts around the first `>` outside quotes, where `quoteAfter`
  says which quote a text leaves open.
* `firstAt_of_not_infix`: a mark that ends in its only `>` cannot begin inside the text before it.
-/

namespace XmlLocate

/-! ## Earliest cuts -/

/-- Of all the cuts that `P` allows, the one into `a` and `b` is the earliest. -/
def Earliest (P : List Char → List Char → Prop) (a b : List Char) : Prop :=
  P a b ∧ ∀ a' b', P a' b' → a.length ≤ a'.length

variable {P Q : List Char → List Char → Prop}

theorem Earliest.unique {t mark a b a' b' : List Char}
    (hP : ∀ a b, P a b → a ++ mark ++ b = t) (h : Earliest P a b) (h' : Earliest P a' b') :
    a = a' ∧ b = b' := by
  have hlen : a.length = a'.length := Nat.le_antisymm (h.2 a' b' h'.1) (h'.2 a b h.1)
  have heq : a ++ (mark ++ b) = a' ++ (mark ++ b') := by
    rw [← List.append_assoc, ← List.append_assoc, hP a b h.1, hP a' b' h'.1]
  obtain ⟨ha, hb⟩ := List.append_inj heq hlen
  exact ⟨ha, List.append_cancel_left hb⟩

theorem earliest_nil {b : List Char} (h : P [] b) : Earliest P [] b :=
  ⟨h, fun _ _ _ => Nat.zero_le _⟩

/-- Where the text cannot be cut before its first character, its cuts are those behind it. -/
theorem earliest_cons_iff {c : Char} {a b : List Char} (h0 : ∀ b, ¬ P [] b)
    (hc : ∀ d a b, P (d :: a) b ↔ d = c ∧ Q a b) :
    Earliest P (c :: a) b ↔ Earliest Q a b := by
  constructor
  · rintro ⟨h, hmin⟩
    refine ⟨((hc c a b).mp h).2, ?_⟩
    intro a' b' h'
    have := hmin (c :: a') b' ((hc c a' b').mpr ⟨rfl, h'⟩)
    simpa using this
  · rintro ⟨h, hmin⟩
    refine ⟨(hc c a b).mpr ⟨rfl, h⟩, ?_⟩
    intro a' b' h'
    cases a' with
    | nil => exact absurd h' (h0 b')
    | cons d a' => simpa using hmin a' b' ((hc d a' b').mp h').2

/-- An earliest cut behind the first character begins with it. -/
theorem Earliest.exists_cons {c : Char} {a b : List Char} (h : Earliest P a b)
    (h0 : ∀ b, ¬ P [] b) (hc : ∀ d a b, P (d :: a) b ↔ d = c ∧ Q a b) : ∃ a', a = c :: a' := by
  cases a with
  | nil => exact absurd h.1 (h0 b)
  | cons d a => exact ⟨a, by rw [((hc d a b).mp h.1).1]⟩

/-! ## Marks -/

/-- `t` is `a`, then `mark`, then `b`, and `mark` occurs nowhere earlier in `t`. -/
def FirstAt (mark t : List Char) : List Char → List Char → Prop :=
  Earliest fun a b => a ++ mark ++ b = t

theorem splitAround_eq_some_iff {mark t a b : List Char} (hm : mark ≠ []) :
    splitAround mark t = some (a, b) ↔ FirstAt mark t a b := by
  induction t generalizing a b with
  | nil =>
    constructor
    · intro h
      simp [splitAround] at h
    · intro h
      have := h.1
      simp [hm] at this
  | cons c t ih =>
    rw [splitAround]
    by_cases hp : mark.isPrefixOf (c :: t) = true
    · rw [if_pos hp]
      have h : FirstAt mark (c :: t) [] ((c :: t).drop mark.length) :=
        earliest_nil (List.prefix_iff_eq_append.mp (List.isPrefixOf_iff_prefix.mp hp))
      constructor
      · intro he
        obtain ⟨rfl, rfl⟩ := Prod.mk.inj (Option.some.inj he)
        exact h
      · intro h'
        obtain ⟨rfl, rfl⟩ := h.unique (fun _ _ h => h) h'
        rfl
    · rw [if_neg hp]
      have h0 : ∀ b, ¬ [] ++ mark ++ b = c :: t := fun b h =>
        hp (List.isPrefixOf_iff_prefix.mpr ⟨b, h⟩)
      have hc : ∀ d a b, d :: a ++ mark ++ b = c :: t ↔ d = c ∧ a ++ mark ++ b = t := by simp
      constructor
      · intro he
        obtain ⟨⟨a', b'⟩, hs, he⟩ := Option.map_eq_some_iff.mp he
        obtain ⟨rfl, rfl⟩ := Prod.mk.inj he
        exact (earliest_cons_iff h0 hc).mpr (ih.mp hs)
      · intro h
        obtain ⟨a', rfl⟩ := h.exists_cons h0 hc
        rw [ih.mpr ((earliest_cons_iff h0 hc).mp h)]
        rfl

/-- A mark that ends in its only `>` cannot overlap the text before it: if it does not occur in
that text, it stands first right behind it. -/
theorem firstAt_of_not_infix {p a b : List Char} (hp : '>' ∉ p) (h : ¬ p ++ ['>'] <:+: a) :
    FirstAt (p ++ ['>']) (a ++ (p ++ ['>']) ++ b) a b := by
  refine ⟨rfl, ?_⟩
  intro a' b' he
  by_contra hlt
  rw [not_le] at hlt
  -- An earlier mark ends inside `a`, or its `>` would stand among `p`.
  have he' : a' ++ p ++ ['>'] ++ b' = a ++ p ++ ['>'] ++ b := by simpa using he
  have hpre : a' ++ p ++ ['>'] <+: a ++ p := by
    refine List.prefix_of_prefix_length_le ⟨b', he'⟩ ⟨['>'] ++ b, by simp⟩ ?_
    simp only [List.length_append, List.length_singleton]
    omega
  rcases Nat.lt_or_ge (a' ++ p).length a.length with hlt' | hge
  · apply h
    obtain ⟨r, hr⟩ : a' ++ p ++ ['>'] <+: a := by
      refine List.prefix_of_prefix_length_le hpre ⟨p, rfl⟩ ?_
      simp only [List.length_append, List.length_singleton] at hlt' ⊢
      omega
    exact ⟨a', r, by rw [← hr]; simp⟩
  · apply hp
    have hdrop := hpre.drop a.length
    rw [List.drop_append_of_le_length hge, List.drop_left] at hdrop
    exact hdrop.subset (by simp)

/-! ## Quotes -/

/-- The quote that is open behind a character. -/
def quoteStep : Option Char → Char → Option Char
  | some q, c => if c = q then none else some q
  | none, c => if isQuote c then some c else none

/-- The quote that is open behind a text. -/
def quoteAfter (quote : Option Char) (t : List Char) : Option Char := t.foldl quoteStep quote

/-- `t` is `a`, then `>`, then `b`, and this is the first `>` outside quoted strings; `quote` is the
quote that is open at the beginning of `t`. -/
def TagEnd (quote : Option Char) (t : List Char) : List Char → List Char → Prop :=
  Earliest fun a b => a ++ ['>'] ++ b = t ∧ quoteAfter quote a = none

theorem splitTag_cons {quote : Option Char} {c : Char} {t : List Char}
    (h : ¬ (quote = none ∧ c = '>')) :
    splitTag quote (c :: t) = (splitTag (quoteStep quote c) t).map fun (a, b) => (c :: a, b) := by
  cases quote with
  | none => rw [splitTag, if_neg fun hc => h ⟨rfl, hc⟩, quoteStep]
  | some q => rw [splitTag, quoteStep]

theorem splitTag_eq_some_iff {quote : Option Char} {t a b : List Char} :
    splitTag quote t = some (a, b) ↔ TagEnd quote t a b := by
  induction t generalizing quote a b with
  | nil =>
    constructor
    · intro h
      cases quote <;> simp [splitTag] at h
    · intro h
      have := h.1.1
      simp at this
  | cons c t ih =>
    by_cases hend : quote = none ∧ c = '>'
    · obtain ⟨rfl, rfl⟩ := hend
      have h : TagEnd none ('>' :: t) [] t := earliest_nil ⟨rfl, rfl⟩
      rw [splitTag, if_pos rfl]
      constructor
      · intro he
        obtain ⟨rfl, rfl⟩ := Prod.mk.inj (Option.some.inj he)
        exact h
      · intro h'
        obtain ⟨rfl, rfl⟩ := h.unique (fun _ _ h => h.1) h'
        rfl
    · rw [splitTag_cons hend]
      have h0 : ∀ b, ¬ ([] ++ ['>'] ++ b = c :: t ∧ quoteAfter quote [] = none) := fun b h =>
        hend ⟨h.2, (List.cons.inj h.1).1.symm⟩
      have hc : ∀ d a b, d :: a ++ ['>'] ++ b = c :: t ∧ quoteAfter quote (d :: a) = none ↔
          d = c ∧ a ++ ['>'] ++ b = t ∧ quoteAfter (quoteStep quote c) a = none := by
        intro d a b
        rw [List.cons_append, List.cons_append, List.cons.injEq, and_assoc]
        refine and_congr_right fun hd => ?_
        rw [hd, quoteAfter, List.foldl_cons, quoteAfter]
      constructor
      · intro he
        obtain ⟨⟨a', b'⟩, hs, he⟩ := Option.map_eq_some_iff.mp he
        obtain ⟨rfl, rfl⟩ := Prod.mk.inj he
        exact (earliest_cons_iff h0 hc).mpr (ih.mp hs)
      · intro h
        obtain ⟨a', rfl⟩ := h.exists_cons h0 hc
        rw [ih.mpr ((earliest_cons_iff h0 hc).mp h)]
        rfl

end XmlLocate
