import XmlLocate.Position
import XmlLocate.Text.Bytes

/-!
# Line tables

A line table holds the offsets at which the lines of a text begin. A line feed, a carriage return,
and the pair of both end a line; the terminator belongs to the line it ends.

**The invariant is part of the type.** The first line begins at 0, the starts increase, and none is
past the end of the text. So every lookup finds a line, and its column is a true difference.

A table grows with the text (`extend`), is made from a whole text (`ofText`) or from a list of
starts that may break the invariant (`ofStarts?`).
-/

namespace XmlLocate

/-! ## Line terminators -/

/-- The offsets just past each line terminator of a text that begins at offset `base`. -/
def lineBreaks (base : Nat) : List Char → List Nat
  | [] => []
  | '\r' :: '\n' :: t => (base + 2) :: lineBreaks (base + 2) t
  | c :: t =>
    if c = '\n' ∨ c = '\r' then (base + 1) :: lineBreaks (base + 1) t
    else lineBreaks (base + c.utf8Size) t

theorem lt_of_mem_lineBreaks {base p : Nat} {t : List Char} (h : p ∈ lineBreaks base t) :
    base < p := by
  fun_induction lineBreaks base t with
  | case1 => simp at h
  | case2 base t ih =>
    rcases List.mem_cons.mp h with rfl | h
    · omega
    · have := ih h; omega
  | case3 base c t _ _ ih =>
    rcases List.mem_cons.mp h with rfl | h
    · omega
    · have := ih h; omega
  | case4 base c t _ _ ih => have := ih h; have := c.utf8Size_pos; omega

theorem le_of_mem_lineBreaks {base p : Nat} {t : List Char} (h : p ∈ lineBreaks base t) :
    p ≤ base + byteLength t := by
  fun_induction lineBreaks base t with
  | case1 => simp at h
  | case2 base t ih =>
    have h1 : ('\r').utf8Size = 1 := rfl
    have h2 : ('\n').utf8Size = 1 := rfl
    simp only [byteLength_cons, h1, h2]
    rcases List.mem_cons.mp h with rfl | h
    · omega
    · have := ih h; omega
  | case3 base c t _ _ ih =>
    have := c.utf8Size_pos
    rw [byteLength_cons]
    rcases List.mem_cons.mp h with rfl | h
    · omega
    · have := ih h; omega
  | case4 base c t _ _ ih => have := ih h; rw [byteLength_cons]; omega

theorem pairwise_lineBreaks (base : Nat) (t : List Char) :
    (lineBreaks base t).Pairwise (· < ·) := by
  fun_induction lineBreaks base t with
  | case1 => exact .nil
  | case2 base t ih => exact List.pairwise_cons.mpr ⟨fun _ => lt_of_mem_lineBreaks, ih⟩
  | case3 base c t _ _ ih => exact List.pairwise_cons.mpr ⟨fun _ => lt_of_mem_lineBreaks, ih⟩
  | case4 base c t _ _ ih => exact ih

/-! ## Tables -/

structure LineTable where
  starts : Array Nat
  /-- The byte length of the text. -/
  length : Nat
  first : starts[0]? = some 0
  increasing : starts.toList.Pairwise (· < ·)
  bounded : ∀ s ∈ starts, s ≤ length
  deriving DecidableEq

namespace LineTable

/-- The table of the empty text. -/
def empty : LineTable where
  starts := #[0]
  length := 0
  first := rfl
  increasing := by simp
  bounded := by simp

/-- The table of a text after `t` is put at its end. A carriage return at the end of the text and a
line feed at the beginning of `t` are taken for two terminators. -/
def extend (l : LineTable) (t : List Char) : LineTable where
  starts := l.starts ++ lineBreaks l.length t
  length := l.length + byteLength t
  first := by
    have h := l.first
    rw [← Array.getElem?_toList] at h ⊢
    rw [Array.toList_appendList, List.getElem?_append_left (List.getElem?_eq_some_iff.mp h).1, h]
  increasing := by
    rw [Array.toList_appendList]
    refine List.pairwise_append.mpr ⟨l.increasing, pairwise_lineBreaks _ _, fun a ha b hb => ?_⟩
    exact Nat.lt_of_le_of_lt (l.bounded a (Array.mem_toList_iff.mp ha)) (lt_of_mem_lineBreaks hb)
  bounded := fun s hs => by
    rcases List.mem_append.mp (Array.toList_appendList ▸ Array.mem_toList_iff.mpr hs) with h | h
    · exact Nat.le_add_right_of_le (l.bounded s (Array.mem_toList_iff.mp h))
    · exact le_of_mem_lineBreaks h

def ofText (t : List Char) : LineTable := empty.extend t

def lineCount (l : LineTable) : Nat := l.starts.size

/-! ## Lookups -/

theorem size_pos (l : LineTable) : 0 < l.starts.size := by
  have := l.first
  grind

/-- The last index from `lo` up to `hi` whose entry is at most `x`, found by halving the interval.
It is `lo` if no later entry is small enough. -/
def lastAtMost (a : Array Nat) (x lo hi : Nat) (h : hi ≤ a.size) : Nat :=
  if _hlo : lo + 1 < hi then
    have hmid : (lo + hi) / 2 < a.size := by omega
    if a[(lo + hi) / 2] ≤ x then lastAtMost a x ((lo + hi) / 2) hi h
    else lastAtMost a x lo ((lo + hi) / 2) (Nat.le_of_lt hmid)
  else lo
termination_by hi - lo

theorem lastAtMost_lt {a : Array Nat} {x lo hi : Nat} {h : hi ≤ a.size} (hlo : lo < hi) :
    lastAtMost a x lo hi h < hi := by
  fun_induction lastAtMost a x lo hi h with
  | case1 lo hi h _ _ _ ih => exact ih (by omega)
  | case2 lo hi h _ _ _ ih => exact Nat.lt_trans (ih (by omega)) (by omega)
  | case3 => exact hlo

/-- The line on which an offset lies. Offsets past the end lie where the text ends. -/
def lineOf (l : LineTable) (offset : Nat) : Nat :=
  lastAtMost l.starts (min offset l.length) 0 l.starts.size (Nat.le_refl _)

theorem lineOf_lt (l : LineTable) (offset : Nat) : l.lineOf offset < l.starts.size :=
  lastAtMost_lt l.size_pos

/-- The number of bytes between the start of its line and an offset. -/
def columnOf (l : LineTable) (offset : Nat) : Nat :=
  have := l.lineOf_lt offset
  min offset l.length - l.starts[l.lineOf offset]

def position (l : LineTable) (offset : Nat) : Position where
  offset := min offset l.length
  row := l.lineOf offset
  column := l.columnOf offset

/-- The offset at which a line begins. -/
def lineStart? (l : LineTable) (line : Nat) : Option Nat := l.starts[line]?

/-- The offset at a column of a line, unless the line ends before it. -/
def offsetOf? (l : LineTable) (line column : Nat) : Option Nat :=
  match l.starts[line]? with
  | none => none
  | some start =>
    match l.starts[line + 1]? with
    | some next => if start + column < next then some (start + column) else none
    | none => if start + column ≤ l.length then some (start + column) else none

/-! ## Tables from lists -/

/-- Why a list of line starts is no table. -/
inductive Invalid where
  | notIncreasing (before after : Nat)
  | pastEnd (start length : Nat)
  deriving DecidableEq, Repr

/-- The first pair of neighbours that does not increase. -/
def firstDescent? : List Nat → Option (Nat × Nat)
  | a :: b :: t => if a < b then firstDescent? (b :: t) else some (a, b)
  | _ => none

theorem pairwise_of_firstDescent? {s : List Nat} (h : firstDescent? s = none) :
    s.Pairwise (· < ·) := by
  fun_induction firstDescent? s with
  | case1 a b t hab ih =>
    have ht := ih h
    refine List.pairwise_cons.mpr ⟨fun c hc => ?_, ht⟩
    rcases List.mem_cons.mp hc with rfl | hc
    · exact hab
    · exact Nat.lt_trans hab (List.rel_of_pairwise_cons ht hc)
  | case2 => simp at h
  | case3 s hs =>
    match s with
    | [] => exact .nil
    | [a] => exact List.pairwise_singleton _ _
    | a :: b :: t => exact absurd rfl (hs a b t)

theorem le_getLast {s : List Nat} (h : s.Pairwise (· < ·)) (hne : s ≠ []) {a : Nat} (ha : a ∈ s) :
    a ≤ s.getLast hne := by
  induction s with
  | nil => exact absurd rfl hne
  | cons b t ih =>
    rcases t with _ | ⟨c, t⟩
    · simp only [List.mem_singleton] at ha
      simp [ha]
    · rw [List.getLast_cons (by simp)]
      rcases List.mem_cons.mp ha with rfl | ha
      · exact Nat.le_of_lt (List.rel_of_pairwise_cons h (List.getLast_mem _))
      · exact ih (List.Pairwise.of_cons h) _ ha

/-- Puts a 0 in front of a list that does not begin with one. -/
def withOrigin : List Nat → List Nat
  | 0 :: t => 0 :: t
  | s => 0 :: s

/-- The table with the given starts and length. The first line may be left out. -/
def ofStarts? (s : List Nat) (length : Nat) : Except Invalid LineTable :=
  match hd : firstDescent? s with
  | some (a, b) => .error (.notIncreasing a b)
  | none =>
    if hl : ∀ h : s ≠ [], s.getLast h ≤ length then
      .ok {
        starts := (withOrigin s).toArray
        length
        first := by cases s with | nil => rfl | cons a t => cases a <;> rfl
        increasing := by
          have hs := pairwise_of_firstDescent? hd
          rcases s with _ | ⟨_ | a, t⟩
          · exact List.pairwise_singleton _ _
          · exact hs
          · refine List.pairwise_cons.mpr ⟨fun b hb => ?_, hs⟩
            rcases List.mem_cons.mp hb with rfl | hb
            · exact Nat.succ_pos _
            · exact Nat.lt_of_le_of_lt (Nat.zero_le _) (List.rel_of_pairwise_cons hs hb)
        bounded := fun b hb => by
          have hs := pairwise_of_firstDescent? hd
          have key : ∀ b ∈ s, b ≤ length := fun b hb =>
            have hne : s ≠ [] := List.ne_nil_of_mem hb
            Nat.le_trans (le_getLast hs hne hb) (hl hne)
          rw [List.mem_toArray] at hb
          rcases s with _ | ⟨_ | a, t⟩
          · simp only [withOrigin, List.mem_singleton] at hb
            simp [hb]
          · exact key b hb
          · rcases List.mem_cons.mp hb with rfl | hb
            · exact Nat.zero_le _
            · exact key b hb }
    else .error (.pastEnd (s.getLastD 0) length)

end LineTable

end XmlLocate
