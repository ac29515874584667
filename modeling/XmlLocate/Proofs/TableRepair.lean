import XmlLocate.Proofs.LineStarts

/-!
# Tables from lists that break the rules

A list of line starts is a table if it increases and does not pass the end of the text. It need not begin
with 0, which is put in front.

* `ofStarts?_eq_ok_iff`: these lists and no others are made tables, and of which starts.
* `ofStarts?_eq_error_iff`: of the others the first descent is named, and the last start only if there is
  no descent.
-/

namespace XmlLocate

namespace LineTable

variable {s : List Nat} {n : Nat}

/-! ## Descents -/

theorem firstDescent?_cons {a : Nat} {t : List Nat} (h : ∀ b ∈ t.head?, a < b) :
    firstDescent? (a :: t) = firstDescent? t := by
  cases t with
  | nil => rfl
  | cons b t => exact if_pos (h b rfl)

theorem firstDescent?_eq_none_iff : firstDescent? s = none ↔ s.Pairwise (· < ·) := by
  refine ⟨pairwise_of_firstDescent?, ?_⟩
  intro h
  induction s with
  | nil => rfl
  | cons a t ih =>
    rw [firstDescent?_cons fun b hb => List.rel_of_pairwise_cons h (List.mem_of_mem_head? hb)]
    exact ih h.of_cons

/-- The descent that is found is the first one: up to it the list increases. -/
theorem firstDescent?_eq_some_iff {a b : Nat} : firstDescent? s = some (a, b) ↔
    ∃ before behind, s = before ++ a :: b :: behind ∧ b ≤ a ∧
      (before ++ [a]).Pairwise (· < ·) := by
  constructor
  · intro h
    fun_induction firstDescent? s with
    | case1 c d t hcd ih =>
      obtain ⟨before, behind, hsplit, hba, hbefore⟩ := ih h
      refine ⟨c :: before, behind, by rw [hsplit, List.cons_append], hba, ?_⟩
      have hhead : (before ++ [a]).head? = some d := by
        have := congrArg List.head? hsplit
        cases before <;> simpa using this.symm
      rw [← List.isChain_iff_pairwise] at hbefore ⊢
      refine List.isChain_cons.mpr ⟨?_, hbefore⟩
      intro y hy
      obtain rfl := Option.some.inj (hhead.symm.trans hy)
      exact hcd
    | case2 c d t hcd =>
      obtain ⟨rfl, rfl⟩ := Prod.mk.inj (Option.some.inj h)
      exact ⟨[], t, rfl, Nat.le_of_not_lt hcd, List.pairwise_singleton _ _⟩
    | case3 => simp at h
  · rintro ⟨before, behind, rfl, hba, hbefore⟩
    induction before with
    | nil => exact if_neg (Nat.not_lt_of_le hba)
    | cons c before ih =>
      have hc : ∀ d ∈ (before ++ a :: b :: behind).head?, c < d := by
        intro d hd
        have hmem : d ∈ (before ++ [a]).head? := by cases before <;> simpa using hd
        exact List.rel_of_pairwise_cons hbefore (List.mem_of_mem_head? hmem)
      rw [List.cons_append, firstDescent?_cons hc]
      exact ih hbefore.of_cons

/-! ## Tables and faults -/

/-- The list becomes the starts of a table: it increases and ends within the text. -/
def Repairable (s : List Nat) (n : Nat) : Prop :=
  s.Pairwise (· < ·) ∧ ∀ last, s.getLast? = some last → last ≤ n

/-- The fault that is named in a list: its first descent, or else its end past that of the text. -/
inductive Faulty (s : List Nat) (n : Nat) : Invalid → Prop
  | descent {before behind : List Nat} {a b : Nat} : s = before ++ a :: b :: behind → b ≤ a →
      (before ++ [a]).Pairwise (· < ·) → Faulty s n (.notIncreasing a b)
  | pastEnd {last : Nat} : s.Pairwise (· < ·) → s.getLast? = some last → n < last →
      Faulty s n (.pastEnd last n)

theorem Faulty.not_repairable {e : Invalid} (h : Faulty s n e) : ¬ Repairable s n := by
  rintro ⟨hs, hend⟩
  cases h with
  | descent hsplit hba hbefore =>
    have hd := firstDescent?_eq_some_iff.mpr ⟨_, _, hsplit, hba, hbefore⟩
    simp [firstDescent?_eq_none_iff.mpr hs] at hd
  | pastEnd _ hlast hlt => exact Nat.not_lt_of_le (hend _ hlast) hlt

theorem withOrigin_eq (s : List Nat) : withOrigin s = if s.head? = some 0 then s else 0 :: s := by
  rcases s with _ | ⟨_ | a, t⟩
  · rfl
  · rfl
  · rfl

theorem forall_getLast_iff : (∀ h : s ≠ [], s.getLast h ≤ n) ↔
    ∀ last, s.getLast? = some last → last ≤ n := by
  constructor
  · intro h last hlast
    have hne : s ≠ [] := by
      rintro rfl
      simp at hlast
    rw [List.getLast?_eq_some_getLast hne] at hlast
    exact Option.some.inj hlast ▸ h hne
  · intro h hne
    exact h _ (List.getLast?_eq_some_getLast hne)

/-- **The lists that become tables** are those that increase up to the end of the text at most. -/
theorem ofStarts?_eq_ok_iff {l : LineTable} : ofStarts? s n = .ok l ↔
    Repairable s n ∧ l.starts = (withOrigin s).toArray ∧ l.length = n := by
  unfold ofStarts? Repairable
  rw [← firstDescent?_eq_none_iff, ← forall_getLast_iff]
  split
  next a b hd => simp [hd]
  next hd =>
    split_ifs with hl
    · rw [Except.ok.injEq, and_iff_right ⟨hd, hl⟩]
      constructor
      · rintro rfl
        exact ⟨rfl, rfl⟩
      · rintro ⟨hs, hn⟩
        exact eq_of_starts hs.symm hn.symm
    · simp [hl]

/-- **The fault that is named** is the one that comes first. -/
theorem ofStarts?_eq_error_iff {e : Invalid} : ofStarts? s n = .error e ↔ Faulty s n e := by
  unfold ofStarts?
  split
  next a b hd =>
    rw [Except.error.injEq]
    constructor
    · rintro rfl
      obtain ⟨before, behind, hs, hba, hbefore⟩ := firstDescent?_eq_some_iff.mp hd
      exact .descent hs hba hbefore
    · rintro (⟨hs, hba, hbefore⟩ | ⟨hs, -, -⟩)
      · have hd' := firstDescent?_eq_some_iff.mpr ⟨_, _, hs, hba, hbefore⟩
        obtain ⟨rfl, rfl⟩ := Prod.mk.inj (Option.some.inj (hd.symm.trans hd'))
        rfl
      · simp [firstDescent?_eq_none_iff.mpr hs] at hd
  next hd =>
    have hnone : ∀ {before behind a b}, s = before ++ a :: b :: behind → b ≤ a →
        ¬ (before ++ [a]).Pairwise (· < ·) := by
      intro before behind a b hs hba hbefore
      simp [firstDescent?_eq_some_iff.mpr ⟨before, behind, hs, hba, hbefore⟩] at hd
    split_ifs with hl
    · refine iff_of_false (by simp) ?_
      rintro (⟨hs, hba, hbefore⟩ | ⟨-, hlast, hlt⟩)
      · exact hnone hs hba hbefore
      · have := forall_getLast_iff.mp hl _ hlast
        omega
    · obtain ⟨hne, hlt⟩ := not_forall.mp hl
      have hlast := List.getLast?_eq_some_getLast hne
      rw [Except.error.injEq, List.getLastD_eq_getLast?, hlast, Option.getD_some]
      constructor
      · rintro rfl
        exact .pastEnd (firstDescent?_eq_none_iff.mp hd) hlast (Nat.lt_of_not_le hlt)
      · rintro (⟨hs, hba, hbefore⟩ | ⟨-, hlast', -⟩)
        · exact absurd hbefore (hnone hs hba)
        · obtain rfl := Option.some.inj (hlast.symm.trans hlast')
          rfl

/-! ## Tables of longer texts -/

/-- The starts of a table make one for a longer text, -/
theorem exists_ofStarts? (l : LineTable) (hn : l.length ≤ n) :
    ∃ l', ofStarts? l.starts.toList n = .ok l' ∧ l'.starts = l.starts ∧ l'.length = n := by
  have hrepairable : Repairable l.starts.toList n := by
    refine ⟨l.increasing, ?_⟩
    intro last hlast
    exact (l.bounded last (Array.mem_toList_iff.mp (List.mem_of_getLast? hlast))).trans hn
  have horigin : withOrigin l.starts.toList = l.starts.toList := by
    rw [withOrigin_eq, if_pos]
    rw [List.head?_eq_getElem?, Array.getElem?_toList, l.first]
  cases hmade : ofStarts? l.starts.toList n with
  | error e => exact absurd hrepairable (ofStarts?_eq_error_iff.mp hmade).not_repairable
  | ok l' =>
    obtain ⟨-, hstarts, hlength⟩ := ofStarts?_eq_ok_iff.mp hmade
    exact ⟨l', rfl, by rw [hstarts, horigin], hlength⟩

/-- in which the places up to the end of the table are the same. -/
theorem ofOffset_eq_of_starts {l l' : LineTable} (hs : l.starts = l'.starts) {offset : Nat}
    (h : offset ≤ l.length) (h' : offset ≤ l'.length) (cause : ScanError.Cause) :
    ScanError.ofOffset l offset cause = .ofOffset l' offset cause := by
  have hmin : min offset l.length = min offset l'.length := by
    rw [Nat.min_eq_left h, Nat.min_eq_left h']
  have hline : l.lineOf offset = l'.lineOf offset := by
    simp only [lineOf, hmin, hs]
  obtain ⟨s, hstart, -⟩ := exists_lineStart l offset
  have hstart' : l'.starts[l'.lineOf offset]? = some s := by rw [← hs, ← hline, hstart]
  rw [ScanError.ofOffset, ScanError.ofOffset, columnOf_eq hstart, columnOf_eq hstart', hmin, hline]

end LineTable

end XmlLocate
