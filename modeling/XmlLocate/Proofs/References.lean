import Mathlib.Data.List.DropRight
import Mathlib.Tactic
import XmlLocate.Text.Blank
import XmlLocate.Xml.Reference

/-!
# References in part of a text

A reference lies between its `&` and its `;`, so text that has neither of them stays as it is wherever it
is put. What a text resolves to does not hang on where it stands either: lengths and offsets only
occur in failures.

**Theorem (`resolved?_trim`).** The blanks at the ends of a text are no part of its references. Without
them it resolves exactly if it did with them, and to the same characters but for these blanks.
-/

namespace XmlLocate

/-- What a text resolves to, if its references are right. -/
def resolved? (t : List Char) : Option (List Char) := (resolveReferences t).toOption

theorem resolved?_eq_some_iff {t data : List Char} :
    resolved? t = some data ↔ resolveReferences t = .ok data := by
  rw [resolved?]
  cases resolveReferences t <;> simp [Except.toOption]

/-! ## Text without references -/

theorem resolveFrom_append_left {a : List Char} (ha : '&' ∉ a) (length offset : Nat) (t : List Char) :
    resolveFrom length offset (a ++ t) =
      (a ++ ·) <$> resolveFrom length (offset + byteLength a) t := by
  induction a generalizing offset with
  | nil => exact (id_map _).symm
  | cons c a ih =>
    rw [List.mem_cons, not_or] at ha
    rw [List.cons_append, resolveFrom, if_pos (Ne.symm ha.1), ih ha.2, byteLength_cons,
      ← Nat.add_assoc]
    exact (comp_map _ _ _).symm

theorem resolveFrom_of_notMem {t : List Char} (h : '&' ∉ t) (length offset : Nat) :
    resolveFrom length offset t = .ok t := by
  have := resolveFrom_append_left h length offset []
  rw [List.append_nil, resolveFrom] at this
  rw [this]
  exact congrArg Except.ok (List.append_nil t)

theorem resolveReferences_of_notMem {t : List Char} (h : '&' ∉ t) : resolveReferences t = .ok t :=
  resolveFrom_of_notMem h _ _

/-! ## Text that moves -/

theorem toOption_map {ε α β : Type} (f : α → β) (x : Except ε α) :
    (f <$> x).toOption = x.toOption.map f := by
  cases x <;> rfl

theorem toOption_bind {ε α β : Type} (x : Except ε α) (f : α → Except ε β) :
    (x >>= f).toOption = x.toOption.bind fun a => (f a).toOption := by
  cases x <;> rfl

theorem toOption_resolve (offset offset' : Nat) (name : List Char) :
    (resolve offset name).toOption = (resolve offset' name).toOption := by
  unfold resolve
  split
  · rfl
  · split <;> rfl

/-- The characters that the name in a reference is made of. -/
def isNameChar (c : Char) : Bool := c != ';' && c != '&'

theorem name_cases (t : List Char) : (∀ c ∈ t, isNameChar c) ∨
    ∃ name c rest, t = name ++ c :: rest ∧ (∀ c ∈ name, isNameChar c) ∧ (c = ';' ∨ c = '&') := by
  cases h : t.dropWhile isNameChar with
  | nil => exact .inl (List.dropWhile_eq_nil_iff.mp h)
  | cons c rest =>
    refine .inr ⟨t.takeWhile isNameChar, c, rest, ?_, fun _ => List.mem_takeWhile_imp, ?_⟩
    · rw [← h, List.takeWhile_append_dropWhile]
    · have := List.dropWhile_get_zero_not isNameChar t (by simp [h])
      simp only [isNameChar] at this
      grind

section

variable {name : List Char} (hname : ∀ c ∈ name, isNameChar c) (length offset : Nat)
include hname

theorem takeWhile_name {c : Char} (hc : ¬ isNameChar c) (rest : List Char) :
    (name ++ c :: rest).takeWhile isNameChar = name ∧
      (name ++ c :: rest).dropWhile isNameChar = c :: rest := by
  rw [List.takeWhile_append_of_pos hname, List.dropWhile_append_of_pos hname,
    List.takeWhile_cons_of_neg hc, List.dropWhile_cons_of_neg hc, List.append_nil]
  exact ⟨rfl, rfl⟩

theorem resolveFrom_reference (rest : List Char) :
    resolveFrom length offset ('&' :: (name ++ ';' :: rest)) =
      resolve (offset + 1) name >>= fun c =>
        (c :: ·) <$> resolveFrom length (offset + byteLength name + 2) rest := by
  obtain ⟨htake, hdrop⟩ := takeWhile_name hname (c := ';') (by decide) rest
  rw [resolveFrom, if_neg (by simp)]
  dsimp only
  split
  · rename_i rest' h
    obtain ⟨-, rfl⟩ := List.cons.inj (hdrop.symm.trans h)
    exact congrArg (fun n => resolve (offset + 1) n >>= fun c =>
      (c :: ·) <$> resolveFrom length (offset + byteLength n + 2) rest) htake
  · rename_i hnone
    exact absurd hdrop (hnone rest)

end

theorem resolveFrom_unfinished {t : List Char} (h : (t.dropWhile isNameChar).head? ≠ some ';')
    (length offset : Nat) : resolveFrom length offset ('&' :: t) = .error (.unfinished offset length) := by
  rw [resolveFrom, if_neg (by simp)]
  dsimp only
  split
  · rename_i rest h'
    have h' : t.dropWhile isNameChar = ';' :: rest := h'
    exact absurd (by rw [h', List.head?_cons]) h
  · rfl

/-- What is put behind a text is resolved apart from it, and the place of the text is of no account. -/
theorem toOption_resolveFrom_append {b : List Char} (hb : ∀ c ∈ b, isNameChar c)
    (length offset length' offset' : Nat) (t : List Char) :
    (resolveFrom length offset (t ++ b)).toOption =
      (resolveFrom length' offset' t).toOption.map (· ++ b) := by
  induction hn : t.length using Nat.strong_induction_on generalizing offset offset' t with
  | _ n ih =>
    subst hn
    cases t with
    | nil =>
      have hnot : '&' ∉ b := fun h => absurd (hb _ h) (by decide)
      rw [List.nil_append, resolveFrom_of_notMem hnot, resolveFrom]
      rfl
    | cons c t =>
      rw [List.cons_append]
      by_cases hc : c = '&'
      · subst hc
        rcases name_cases t with ht | ⟨name, c, rest, rfl, hname, rfl | rfl⟩
        · have htb : ∀ c ∈ t ++ b, isNameChar c := by
            intro c hc
            exact (List.mem_append.mp hc).elim (ht c) (hb c)
          rw [resolveFrom_unfinished (by rw [List.dropWhile_eq_nil_iff.mpr htb]; simp),
            resolveFrom_unfinished (by rw [List.dropWhile_eq_nil_iff.mpr ht]; simp)]
          rfl
        · have hlt : rest.length < ('&' :: (name ++ ';' :: rest)).length := by simp; omega
          rw [List.append_assoc, List.cons_append, resolveFrom_reference hname,
            resolveFrom_reference hname, toOption_bind, toOption_bind,
            toOption_resolve (offset + 1) (offset' + 1)]
          cases (resolve (offset' + 1) name).toOption with
          | none => rfl
          | some c =>
            rw [Option.bind_some, Option.bind_some, toOption_map, toOption_map,
              ih _ hlt _ (offset' + byteLength name + 2) rest rfl]
            simp [Function.comp_def]
        · have hdrop := fun rest => (takeWhile_name hname (c := '&') (by decide) rest).2
          rw [List.append_assoc, List.cons_append, resolveFrom_unfinished (by simp [hdrop]),
            resolveFrom_unfinished (by simp [hdrop])]
          rfl
      · rw [resolveFrom, if_pos hc, resolveFrom, if_pos hc, toOption_map, toOption_map,
          ih t.length (by simp) _ (offset' + c.utf8Size) t rfl]
        simp [Function.comp_def]

/-! ## Blanks at the ends -/

/-- A text is what is left of it without the blanks at its ends, between these. -/
theorem exists_trim (t : List Char) : ∃ a b, t = a ++ trim t ++ b ∧ ∀ c ∈ a ++ b, isBlank c := by
  refine ⟨t.takeWhile isBlank, (t.dropWhile isBlank).rtakeWhile isBlank, ?_, ?_⟩
  · have hright : trim t ++ (t.dropWhile isBlank).rtakeWhile isBlank = t.dropWhile isBlank :=
      List.rdropWhile_append_rtakeWhile
    rw [List.append_assoc, hright, List.takeWhile_append_dropWhile]
  · intro c hc
    rcases List.mem_append.mp hc with hc | hc
    · exact List.mem_takeWhile_imp hc
    · exact List.mem_rtakeWhile_imp hc

theorem not_isBlank_of_head?_dropWhile {t : List Char} {c : Char}
    (h : (t.dropWhile isBlank).head? = some c) : ¬ isBlank c := by
  have := List.head?_dropWhile_not isBlank t
  rw [h] at this
  exact Bool.eq_false_iff.mp this

theorem not_isBlank_of_head?_trim {t : List Char} {c : Char} (h : (trim t).head? = some c) :
    ¬ isBlank c := by
  obtain ⟨b, hb⟩ : trim t <+: t.dropWhile isBlank := List.rdropWhile_prefix isBlank _
  have hhead : (t.dropWhile isBlank).head? = some c := by
    rw [← hb, List.head?_append, h]
    rfl
  exact not_isBlank_of_head?_dropWhile hhead

theorem not_isBlank_of_getLast?_trim {t : List Char} {c : Char} (h : (trim t).getLast? = some c) :
    ¬ isBlank c := by
  rw [trim, trimEnd, List.getLast?_reverse] at h
  exact not_isBlank_of_head?_dropWhile h

theorem isNameChar_of_isBlank {c : Char} (h : isBlank c) : isNameChar c := by
  simp only [isBlank, Bool.or_eq_true, beq_iff_eq] at h
  rcases h with ((rfl | rfl) | rfl) | rfl <;> rfl

/-- **Blanks at the ends of a text are kept, and are no part of its references.** -/
theorem resolved?_trim (t : List Char) : ∃ a b, t = a ++ trim t ++ b ∧ (∀ c ∈ a ++ b, isBlank c) ∧
    resolved? t = (resolved? (trim t)).map (a ++ · ++ b) := by
  obtain ⟨a, b, ht, hblank⟩ := exists_trim t
  refine ⟨a, b, ht, hblank, ?_⟩
  have ha : '&' ∉ a := fun h => absurd (hblank _ (List.mem_append_left _ h)) (by decide)
  have hb : ∀ c ∈ b, isNameChar c := fun c hc =>
    isNameChar_of_isBlank (hblank c (List.mem_append_right _ hc))
  calc resolved? t
      = (resolveFrom (byteLength t) 0 (a ++ (trim t ++ b))).toOption := by
        rw [← List.append_assoc, ← ht]
        rfl
    _ = (resolveReferences (trim t)).toOption.map fun u => a ++ (u ++ b) := by
        rw [resolveFrom_append_left ha, toOption_map, toOption_resolveFrom_append hb _ _ _ 0,
          Option.map_map]
        rfl
    _ = (resolved? (trim t)).map (a ++ · ++ b) := by simp [resolved?]

end XmlLocate
