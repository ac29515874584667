import Mathlib.Data.Nat.Count
import XmlLocate.Proofs.Lines

/-!
# Where lines begin

A line table is made from the characters of a text. Its offsets count bytes, so that what it says is
about the bytes: `EndsLine` tells from these alone where a line ends. A byte below 128 stands for itself
in UTF-8, so that no byte of another character is taken for a line feed or a carriage return.

**Theorem (`lines_of_terminators`).** The starts of a text are 0 and the places at which a line ends,
in order. In every table a lookup finds the line that an offset is on, and its column from the start of
that line. So the line of an offset in a text is the number of terminators that end at it or before.
-/

namespace XmlLocate

/-! ## Bytes that end lines -/

/-- The bytes of a text in UTF-8. -/
def textBytes (t : List Char) : List UInt8 := t.flatMap String.utf8EncodeChar

@[simp] theorem textBytes_nil : textBytes [] = [] := rfl

@[simp] theorem textBytes_cons (c : Char) (t : List Char) :
    textBytes (c :: t) = String.utf8EncodeChar c ++ textBytes t := List.flatMap_cons

theorem length_textBytes (t : List Char) : (textBytes t).length = byteLength t := by
  induction t with
  | nil => rfl
  | cons c t ih =>
    rw [textBytes_cons, List.length_append, String.length_utf8EncodeChar, ih, byteLength_cons]

/-- A byte below 128 is a character by itself. -/
theorem val_eq_of_mem_utf8EncodeChar {c : Char} {b : UInt8} (hb : b.toNat < 128)
    (h : b ∈ String.utf8EncodeChar c) : c.val.toNat = b.toNat := by
  unfold String.utf8EncodeChar at h
  dsimp only at h
  split_ifs at h with h1 h2 h3
  · rw [List.mem_singleton] at h
    rw [h, UInt8.toNat_ofNat']
    omega
  -- The bytes of a longer character are all at least 128.
  all_goals
    simp only [List.mem_cons, List.not_mem_nil, or_false] at h
    exfalso
  · rcases h with rfl | rfl
    all_goals
      rw [UInt8.toNat_ofNat'] at hb
      omega
  · rcases h with rfl | rfl | rfl
    all_goals
      rw [UInt8.toNat_ofNat'] at hb
      omega
  · rcases h with rfl | rfl | rfl | rfl
    all_goals
      rw [UInt8.toNat_ofNat'] at hb
      omega

theorem eq_lineFeed_of_mem {c : Char} (h : 10 ∈ String.utf8EncodeChar c) : c = '\n' :=
  Char.ext (UInt32.toNat_inj.mp (val_eq_of_mem_utf8EncodeChar (by decide) h))

theorem eq_carriageReturn_of_mem {c : Char} (h : 13 ∈ String.utf8EncodeChar c) : c = '\r' :=
  Char.ext (UInt32.toNat_inj.mp (val_eq_of_mem_utf8EncodeChar (by decide) h))

/-- Only a line feed has the byte of one in front. -/
theorem exists_cons_of_getElem?_textBytes {t : List Char} (h : (textBytes t)[0]? = some 10) :
    ∃ u, t = '\n' :: u := by
  cases t with
  | nil => simp at h
  | cons c u =>
    have hpos : 0 < (String.utf8EncodeChar c).length := by
      rw [String.length_utf8EncodeChar]
      exact c.utf8Size_pos
    rw [textBytes_cons, List.getElem?_append_left hpos] at h
    exact ⟨u, by rw [eq_lineFeed_of_mem (List.mem_of_getElem? h)]⟩

/-- At `p` a line ends: behind a line feed, or behind a carriage return that no line feed follows. -/
def EndsLine (bytes : List UInt8) : Nat → Prop
  | 0 => False
  | p + 1 => bytes[p]? = some 10 ∨ (bytes[p]? = some 13 ∧ bytes[p + 1]? ≠ some 10)

instance (bytes : List UInt8) : DecidablePred (EndsLine bytes)
  | 0 => inferInstanceAs (Decidable False)
  | p + 1 =>
    inferInstanceAs (Decidable (bytes[p]? = some 10 ∨ (bytes[p]? = some 13 ∧ bytes[p + 1]? ≠ some 10)))

theorem endsLine_append {a b : List UInt8} {p : Nat} (hp : 0 < p) :
    EndsLine (a ++ b) (a.length + p) ↔ EndsLine b p := by
  obtain ⟨p, rfl⟩ := Nat.exists_eq_succ_of_ne_zero hp.ne'
  show ((a ++ b)[a.length + p]? = _ ∨ ((a ++ b)[a.length + p]? = _ ∧
    (a ++ b)[a.length + (p + 1)]? ≠ _)) ↔ _
  rw [List.getElem?_append_right (by omega), List.getElem?_append_right (by omega),
    Nat.add_sub_cancel_left, Nat.add_sub_cancel_left]
  rfl

theorem not_endsLine_of_notMem {a b : List UInt8} {p : Nat} (hlf : 10 ∉ a) (hcr : 13 ∉ a)
    (hp : p ≤ a.length) : ¬ EndsLine (a ++ b) p := by
  cases p with
  | zero => exact id
  | succ p =>
    have hget : (a ++ b)[p]? = some a[p] := by
      rw [List.getElem?_append_left hp, List.getElem?_eq_getElem hp]
    have hmem : a[p] ∈ a := List.getElem_mem hp
    rintro (h | ⟨h, -⟩)
    all_goals
      rw [hget, Option.some.injEq] at h
      rw [h] at hmem
      contradiction

theorem notMem_lineBreaks {k p : Nat} (hp : p ≤ k) (base : Nat) (t : List Char) :
    base + p ∉ lineBreaks (base + k) t := by
  intro h
  have := lt_of_mem_lineBreaks h
  omega

/-- Behind the bytes `a` of its first characters, the line breaks of a text are those of the rest. -/
theorem mem_lineBreaks_behind {base k p : Nat} {t : List Char} {a : List UInt8}
    (h : ∀ {p}, base + k + p ∈ lineBreaks (base + k) t ↔ EndsLine (textBytes t) p)
    (ha : a.length = k) (hp : k < p) :
    base + p ∈ lineBreaks (base + k) t ↔ EndsLine (a ++ textBytes t) p := by
  subst ha
  obtain ⟨p, rfl⟩ := Nat.exists_eq_add_of_lt hp
  rw [Nat.add_assoc a.length, endsLine_append p.succ_pos, ← h, Nat.add_assoc base]

/-- **The line breaks of a text are the places at which its bytes end a line.** -/
theorem mem_lineBreaks_iff {base p : Nat} {t : List Char} :
    base + p ∈ lineBreaks base t ↔ EndsLine (textBytes t) p := by
  fun_induction lineBreaks base t generalizing p with
  | case1 base => cases p <;> simp [EndsLine]
  | case2 base t ih =>
    have hbytes : textBytes ('\r' :: '\n' :: t) = [13, 10] ++ textBytes t := rfl
    rw [hbytes, List.mem_cons]
    rcases Nat.lt_or_ge 2 p with hp | hp
    · rw [or_iff_right (by omega), mem_lineBreaks_behind (a := [13, 10]) ih rfl hp]
    · rw [or_iff_left (notMem_lineBreaks hp base _)]
      interval_cases p <;> simp [EndsLine]
  | case3 base c t hpair hc ih =>
    have hbytes : textBytes (c :: t) = String.utf8EncodeChar c ++ textBytes t := textBytes_cons c t
    have hsize : (String.utf8EncodeChar c).length = 1 := by
      rcases hc with rfl | rfl <;> rfl
    rw [hbytes, List.mem_cons]
    rcases Nat.lt_or_ge 1 p with hp | hp
    · rw [or_iff_right (by omega), mem_lineBreaks_behind ih hsize hp]
    · rw [or_iff_left (notMem_lineBreaks hp base _)]
      cases p with
      | zero => simp [EndsLine]
      | succ p =>
        obtain rfl : p = 0 := by omega
        refine iff_of_true rfl ?_
        rcases hc with rfl | rfl
        · exact .inl rfl
        · refine .inr ⟨rfl, ?_⟩
          show (textBytes t)[0]? ≠ some 10
          intro h
          obtain ⟨u, rfl⟩ := exists_cons_of_getElem?_textBytes h
          exact hpair u rfl rfl
  | case4 base c t hpair hc ih =>
    rw [textBytes_cons]
    rcases Nat.lt_or_ge c.utf8Size p with hp | hp
    · exact mem_lineBreaks_behind ih (String.length_utf8EncodeChar c) hp
    · refine iff_of_false (notMem_lineBreaks hp base t) ?_
      rw [← String.length_utf8EncodeChar] at hp
      refine not_endsLine_of_notMem ?_ ?_ hp
      · exact fun h => hc (.inl (eq_lineFeed_of_mem h))
      · exact fun h => hc (.inr (eq_carriageReturn_of_mem h))

/-! ## Lookups -/

namespace LineTable

/-- An offset is on a line: the line begins there or before, and the next one, if any, does not. -/
def OnLine (l : LineTable) (x i : Nat) : Prop :=
  ∃ s, l.starts[i]? = some s ∧ s ≤ x ∧ ∀ next, l.starts[i + 1]? = some next → x < next

theorem onLine_iff_isLineAt {l : LineTable} {x i : Nat} : l.OnLine x i ↔ l.IsLineAt x i := by
  constructor
  · rintro ⟨s, hs, hle, hnext⟩
    refine ⟨⟨s, hs, hle⟩, ?_⟩
    intro j hj s' hs'
    have hlt : i + 1 < l.starts.size := by
      obtain ⟨hj', -⟩ := Array.getElem?_eq_some_iff.mp hs'
      omega
    have hx := hnext _ (Array.getElem?_eq_getElem hlt)
    rcases Nat.lt_or_eq_of_le (Nat.succ_le_of_lt hj) with hj | rfl
    · exact hx.trans (starts_lt hj (Array.getElem?_eq_getElem hlt) hs')
    · exact hnext _ hs'
  · rintro ⟨⟨s, hs, hle⟩, hlater⟩
    exact ⟨s, hs, hle, hlater _ (Nat.lt_succ_self i)⟩

theorem lineOf_eq_iff_onLine {l : LineTable} {offset i : Nat} :
    l.lineOf offset = i ↔ l.OnLine (min offset l.length) i := by
  rw [lineOf_eq_iff, onLine_iff_isLineAt]

/-- The line of an offset begins there or before, and the column is what lies between. -/
theorem exists_lineStart (l : LineTable) (offset : Nat) :
    ∃ s, l.starts[l.lineOf offset]? = some s ∧ s ≤ min offset l.length ∧
      s + l.columnOf offset = min offset l.length := by
  obtain ⟨s, hs, hle, -⟩ := lineOf_eq_iff_onLine.mp (rfl : l.lineOf offset = _)
  refine ⟨s, hs, hle, ?_⟩
  rw [columnOf_eq hs]
  omega

/-- The line of an offset within the text is the next one exactly if a line begins there. -/
theorem lineOf_succ {l : LineTable} {x : Nat} (hx : x < l.length) :
    l.lineOf (x + 1) = l.lineOf x + if x + 1 ∈ l.starts then 1 else 0 := by
  obtain ⟨s, hs, hle, hnext⟩ := lineOf_eq_iff_onLine.mp (rfl : l.lineOf x = _)
  rw [Nat.min_eq_left hx.le] at hle hnext
  rw [lineOf_eq_iff_onLine, Nat.min_eq_left hx]
  split_ifs with hmem
  · obtain ⟨j, hj⟩ := Array.getElem?_of_mem hmem
    -- A line between `x` and `x + 1` would begin at neither.
    have hlt : l.lineOf x < j := by
      by_contra hge
      rcases Nat.lt_or_eq_of_le (Nat.le_of_not_lt hge) with hlt | rfl
      · have := starts_lt hlt hj hs
        omega
      · obtain rfl := Option.some.inj (hs.symm.trans hj)
        omega
    obtain rfl : j = l.lineOf x + 1 := by
      by_contra hne
      have hsize := (Array.getElem?_eq_some_iff.mp hj).1
      have hlt : l.lineOf x + 1 < l.starts.size := by omega
      have hget := Array.getElem?_eq_getElem hlt
      have := hnext _ hget
      have := starts_lt (by omega) hget hj
      omega
    exact ⟨x + 1, hj, Nat.le_refl _, fun next => starts_lt (Nat.lt_succ_self _) hj⟩
  · refine ⟨s, hs, by omega, ?_⟩
    intro next hnext'
    have := hnext next hnext'
    have hne : next ≠ x + 1 := by
      rintro rfl
      exact hmem (Array.mem_of_getElem? hnext')
    omega

/-- The line of an offset is the number of places up to it at which a line ends. -/
theorem lineOf_eq_count {l : LineTable} {p : Nat → Prop} [DecidablePred p] (hzero : ¬ p 0)
    (hp : ∀ x, x + 1 ≤ l.length → (x + 1 ∈ l.starts ↔ p (x + 1))) {x : Nat} (hx : x ≤ l.length) :
    l.lineOf x = Nat.count p (x + 1) := by
  induction x with
  | zero =>
    rw [Nat.count_succ, if_neg hzero, Nat.count_zero, lineOf_eq_iff_onLine, Nat.zero_min]
    exact ⟨0, l.first, Nat.le_refl 0, fun next => starts_lt Nat.zero_lt_one l.first⟩
  | succ x ih =>
    rw [Nat.count_succ, ← ih (by omega), lineOf_succ hx, if_congr (hp x hx) rfl rfl]

theorem lineOf_min (l : LineTable) (offset : Nat) :
    l.lineOf (min offset l.length) = l.lineOf offset := by
  rw [lineOf, lineOf, Nat.min_assoc, Nat.min_self]

theorem columnOf_min (l : LineTable) (offset : Nat) :
    l.columnOf (min offset l.length) = l.columnOf offset := by
  obtain ⟨s, hs, -⟩ := exists_lineStart l offset
  have hs' : l.starts[l.lineOf (min offset l.length)]? = some s := by rw [lineOf_min, hs]
  rw [columnOf_eq hs, columnOf_eq hs', Nat.min_assoc, Nat.min_self]

theorem position_min (l : LineTable) (offset : Nat) :
    l.position (min offset l.length) = l.position offset := by
  rw [position, position, columnOf_min, lineOf_min, Nat.min_assoc, Nat.min_self]

/-! ## Tables of texts -/

theorem mem_starts_ofText {t : List Char} {p : Nat} :
    p ∈ (ofText t).starts ↔ p = 0 ∨ EndsLine (textBytes t) p := by
  have h : 0 + p ∈ lineBreaks 0 t ↔ EndsLine (textBytes t) p := mem_lineBreaks_iff
  rw [Nat.zero_add] at h
  rw [← h, ← List.mem_cons, Array.mem_iff_getElem?, List.mem_iff_getElem?]
  simp only [getElem?_ofText]

/-- **Lines are what the terminators of a text make them, and lookups find them.** -/
theorem lines_of_terminators :
    (∀ t, (ofText t).length = (textBytes t).length ∧
      (ofText t).starts.toList.Pairwise (· < ·) ∧
      ∀ p, p ∈ (ofText t).starts ↔
        p ≤ (textBytes t).length ∧ (p = 0 ∨ EndsLine (textBytes t) p)) ∧
    (∀ (l : LineTable) (offset : Nat),
      (∀ i, l.lineOf offset = i ↔ l.OnLine (min offset l.length) i) ∧
      (∃ s, l.starts[l.lineOf offset]? = some s ∧ s ≤ min offset l.length ∧
        s + l.columnOf offset = min offset l.length) ∧
      l.position offset = ⟨min offset l.length, l.lineOf offset, l.columnOf offset⟩) ∧
    ∀ t offset, (ofText t).lineOf offset =
      Nat.count (EndsLine (textBytes t)) (min offset (textBytes t).length + 1) := by
  refine ⟨?_, ?_, ?_⟩
  · intro t
    refine ⟨?_, (ofText t).increasing, ?_⟩
    · rw [length_textBytes, length_ofText]
    · intro p
      rw [← mem_starts_ofText, length_textBytes, ← length_ofText, iff_and_self]
      exact (ofText t).bounded p
  · intro l offset
    exact ⟨fun i => lineOf_eq_iff_onLine, exists_lineStart l offset, rfl⟩
  · intro t offset
    rw [length_textBytes, ← length_ofText, ← lineOf_min]
    refine lineOf_eq_count id ?_ (Nat.min_le_right _ _)
    intro x _
    exact mem_starts_ofText.trans (or_iff_right x.succ_ne_zero)

example : (ofText "a\r\nb\rc\nd".toList).starts = #[0, 3, 5, 7] := by decide

end LineTable

end XmlLocate
