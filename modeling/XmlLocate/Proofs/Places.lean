import Mathlib.Data.Prod.Lex
import Mathlib.Order.Monotone.Basic
import XmlLocate.Json.Number
import XmlLocate.Proofs.LineStarts

/-!
# Offsets and places

An offset in a text and the line and column of it are two names of one place.

**Theorem (`positions_are_offsets`).** In every line table the line and column of an offset lead back to
it, and a line and column that lead to an offset are its own. Those that lead to none name a line that
is not there, or lie behind the end of their line. Offsets within the text are in the order of their
lines and columns, which is that of their positions.

An offset is on a line if it lies between the start of the line and that of the next (`OnLine`). On the last
line it may also be the end of the text. Both directions are about this: a lookup finds the line that the
offset is on, and a line and column have an offset if that is on the line.
-/

namespace XmlLocate

namespace LineTable

variable {l : LineTable}

/-! ## From offsets to places and back -/

/-- A line and column have the offset that far behind the start of the line, unless the next line or the
end of the text comes first. -/
theorem offsetOf?_eq_some_iff {line column offset : Nat} :
    l.offsetOf? line column = some offset ↔ ∃ start, l.starts[line]? = some start ∧
      start + column = offset ∧ offset ≤ l.length ∧
      ∀ next, l.starts[line + 1]? = some next → offset < next := by
  unfold offsetOf?
  cases hs : l.starts[line]? with
  | none => simp
  | some start =>
    cases hnext : l.starts[line + 1]? with
    | none => simp +contextual [and_comm]
    | some next =>
      have hbound := l.bounded _ (Array.mem_of_getElem? hnext)
      simp only [Option.ite_none_right_eq_some, Option.some.injEq]
      constructor
      · rintro ⟨hlt, rfl⟩
        exact ⟨start, rfl, rfl, by omega, fun next h => h ▸ hlt⟩
      · rintro ⟨_, rfl, rfl, -, hlt⟩
        exact ⟨hlt next rfl, rfl⟩

/-- **A line and column have an offset exactly if they are its own.** -/
theorem offsetOf?_eq_some_iff_position {line column offset : Nat} :
    l.offsetOf? line column = some offset ↔
      offset ≤ l.length ∧ l.position offset = ⟨offset, line, column⟩ := by
  rw [offsetOf?_eq_some_iff, position, Position.mk.injEq]
  constructor
  · rintro ⟨start, hs, rfl, hle, hnext⟩
    have hmin : min (start + column) l.length = start + column := Nat.min_eq_left hle
    obtain rfl : l.lineOf (start + column) = line := by
      rw [lineOf_eq_iff_onLine, hmin]
      exact ⟨start, hs, Nat.le_add_right _ _, hnext⟩
    refine ⟨hle, hmin, rfl, ?_⟩
    rw [columnOf_eq hs, hmin, Nat.add_sub_cancel_left]
  · rintro ⟨hle, hmin, rfl, rfl⟩
    obtain ⟨start, hs, -, hcolumn⟩ := exists_lineStart l offset
    obtain ⟨_, -, -, hnext⟩ := lineOf_eq_iff_onLine.mp (rfl : l.lineOf offset = _)
    rw [hmin] at hcolumn hnext
    exact ⟨start, hs, hcolumn, hle, hnext⟩

/-- A line and column have no offset if the line is not there, or the column lies behind its end. -/
theorem offsetOf?_eq_none_iff {line column : Nat} : l.offsetOf? line column = none ↔
    l.lineCount ≤ line ∨ ∃ start, l.starts[line]? = some start ∧
      ((∃ next, l.starts[line + 1]? = some next ∧ next ≤ start + column) ∨
        l.starts[line + 1]? = none ∧ l.length < start + column) := by
  unfold offsetOf? lineCount
  cases hs : l.starts[line]? with
  | none => simpa using Array.getElem?_eq_none_iff.mp hs
  | some start =>
    have hline := (Array.getElem?_eq_some_iff.mp hs).1
    cases hnext : l.starts[line + 1]? with
    | none => simp [hline]
    | some next => simp [hline]

/-! ## Additions that go no further than a limit -/

/-- The sum of two numbers, unless it is past a limit. -/
def sumUpTo? (limit a b : Nat) : Option Nat := if a + b ≤ limit then some (a + b) else none

/-- The offset at a column of a line, where no sum may be past a limit. -/
def offsetUpTo? (limit : Nat) (l : LineTable) (line column : Nat) : Option Nat := do
  let start ← l.starts[line]?
  let offset ← sumUpTo? limit start column
  match l.starts[line + 1]? with
  | some next => if offset < next then some offset else none
  | none => if offset ≤ l.length then some offset else none

/-- A sum past a limit that is past the text is past the end of its line as well. -/
theorem offsetUpTo?_eq {limit : Nat} (hlimit : l.length ≤ limit) (line column : Nat) :
    offsetUpTo? limit l line column = l.offsetOf? line column := by
  unfold offsetUpTo? offsetOf? sumUpTo?
  cases hs : l.starts[line]? with
  | none => rfl
  | some start =>
    have hbound : ∀ next, l.starts[line + 1]? = some next → next ≤ l.length := fun next hnext =>
      l.bounded _ (Array.mem_of_getElem? hnext)
    by_cases hsum : start + column ≤ limit
    · cases hnext : l.starts[line + 1]? <;> simp [hsum]
    · cases hnext : l.starts[line + 1]? with
      | none =>
        have : ¬ start + column ≤ l.length := by omega
        simp [hsum, this]
      | some next =>
        have := hbound next hnext
        have : ¬ start + column < next := by omega
        simp [hsum, this]

/-! ## The order of places -/

/-- The line and column of an offset, ordered by line, then column. -/
def place (l : LineTable) (offset : Nat) : Nat ×ₗ Nat :=
  toLex (l.lineOf offset, l.columnOf offset)

theorem lineOf_mono (l : LineTable) : Monotone l.lineOf := by
  intro x y hxy
  obtain ⟨⟨s, hs, hle⟩, -⟩ := lineOf_eq_iff.mp (rfl : l.lineOf x = _)
  obtain ⟨-, hlater⟩ := lineOf_eq_iff.mp (rfl : l.lineOf y = _)
  by_contra hlt
  have := hlater _ (Nat.lt_of_not_le hlt) s hs
  omega

theorem place_strictMonoOn (l : LineTable) : StrictMonoOn l.place (Set.Iic l.length) := by
  intro x hx y hy hxy
  rw [Set.mem_Iic] at hx hy
  rw [place, place, Prod.Lex.toLex_lt_toLex]
  rcases (l.lineOf_mono hxy.le).lt_or_eq with hline | hline
  · exact .inl hline
  · obtain ⟨s, hs, -, hcolumn⟩ := exists_lineStart l x
    obtain ⟨s', hs', -, hcolumn'⟩ := exists_lineStart l y
    rw [← hline, hs, Option.some.injEq] at hs'
    exact .inr ⟨hline, by dsimp only; omega⟩

theorem compare_place {x y : Nat} (hx : x ≤ l.length) (hy : y ≤ l.length) :
    (compare (l.lineOf x) (l.lineOf y)).then (compare (l.columnOf x) (l.columnOf y)) =
      compare x y := by
  have hlt : ∀ {x y : Nat}, x < y → y ≤ l.length → l.lineOf x < l.lineOf y ∨
      l.lineOf x = l.lineOf y ∧ l.columnOf x < l.columnOf y := by
    intro x y hxy hy
    have hplace := l.place_strictMonoOn (Set.mem_Iic.mpr (hxy.le.trans hy)) (Set.mem_Iic.mpr hy) hxy
    rwa [place, place, Prod.Lex.toLex_lt_toLex] at hplace
  rcases Nat.lt_trichotomy x y with h | rfl | h
  · rw [Nat.compare_eq_lt.mpr h, Ordering.then_eq_lt, Nat.compare_eq_lt, Nat.compare_eq_eq,
      Nat.compare_eq_lt]
    exact hlt h hy
  · rw [Std.compare_self, Std.compare_self, Std.compare_self]
    rfl
  · rw [Nat.compare_eq_gt.mpr h, Ordering.then_eq_gt, Nat.compare_eq_gt, Nat.compare_eq_eq,
      Nat.compare_eq_gt]
    rw [eq_comm (a := l.lineOf x)]
    exact hlt h hx

/-- Positions are compared by their offsets first, and those of one offset are the same. -/
theorem compare_position {x y : Nat} (hx : x ≤ l.length) (hy : y ≤ l.length) :
    compare (l.position x) (l.position y) = compare x y := by
  have hunfold : compare (l.position x) (l.position y) =
      (compare (min x l.length) (min y l.length)).then
        ((compare (l.lineOf x) (l.lineOf y)).then (compare (l.columnOf x) (l.columnOf y))) := by
    rw [show compare (l.position x) _ = instOrdPosition.ord _ _ from rfl, instOrdPosition.ord]
    simp only [position, Ordering.then_eq]
  rw [hunfold, compare_place hx hy, Nat.min_eq_left hx, Nat.min_eq_left hy]
  exact Ordering.then_self

/-- **Positions are offsets by another name**, and in the same order. -/
theorem positions_are_offsets (l : LineTable) :
    (∀ offset, l.offsetOf? (l.position offset).row (l.position offset).column =
      some (min offset l.length)) ∧
    (∀ line column offset, l.offsetOf? line column = some offset ↔
      offset ≤ l.length ∧ l.position offset = ⟨offset, line, column⟩) ∧
    (∀ line column, l.offsetOf? line column = none ↔
      l.lineCount ≤ line ∨ ∃ start, l.starts[line]? = some start ∧
        ((∃ next, l.starts[line + 1]? = some next ∧ next ≤ start + column) ∨
          l.starts[line + 1]? = none ∧ l.length < start + column)) ∧
    (∀ limit, l.length ≤ limit → ∀ line column,
      offsetUpTo? limit l line column = l.offsetOf? line column ∧
      ∀ start, l.starts[line]? = some start → limit < start + column →
        l.offsetOf? line column = none) ∧
    (∀ line column line' column' offset, l.offsetOf? line column = some offset →
      l.offsetOf? line' column' = some offset → line = line' ∧ column = column') ∧
    ∀ x y, x ≤ l.length → y ≤ l.length →
      (x ≤ y ↔ toLex ((l.position x).row, (l.position x).column) ≤
        toLex ((l.position y).row, (l.position y).column)) ∧
      compare (l.position x) (l.position y) = compare x y ∧
      (compare (l.position x).row (l.position y).row).then
        (compare (l.position x).column (l.position y).column) = compare x y := by
  refine ⟨?_, ?_, ?_, ?_, ?_, ?_⟩
  · intro offset
    exact offsetOf?_eq_some_iff_position.mpr ⟨Nat.min_le_right _ _, l.position_min offset⟩
  · intro line column offset
    exact offsetOf?_eq_some_iff_position
  · intro line column
    exact offsetOf?_eq_none_iff
  · intro limit hlimit line column
    have heq := offsetUpTo?_eq hlimit line column
    refine ⟨heq, ?_⟩
    intro start hs hsum
    have hnone : sumUpTo? limit start column = none := if_neg (Nat.not_le_of_lt hsum)
    rw [← heq, offsetUpTo?, hs]
    simp only [Option.bind_eq_bind, Option.bind_some, hnone, Option.bind_none]
  · intro line column line' column' offset h h'
    obtain ⟨-, h⟩ := offsetOf?_eq_some_iff_position.mp h
    obtain ⟨-, h'⟩ := offsetOf?_eq_some_iff_position.mp h'
    have heq := h.symm.trans h'
    exact ⟨congrArg Position.row heq, congrArg Position.column heq⟩
  · intro x y hx hy
    refine ⟨?_, compare_position hx hy, compare_place hx hy⟩
    exact (l.place_strictMonoOn.le_iff_le (Set.mem_Iic.mpr hx) (Set.mem_Iic.mpr hy)).symm

/-- An empty last line at the largest offset, of which every column but the first is past the limit. -/
theorem positions_at_limit : ∃ l : LineTable, l.starts = #[0, maxOffset] ∧ l.length = maxOffset ∧
    l.offsetOf? 1 0 = some maxOffset ∧ offsetUpTo? maxOffset l 1 1 = none ∧ l.offsetOf? 1 1 = none ∧
    compare (l.position 0) (l.position maxOffset) = .lt := by
  let l : LineTable := ⟨#[0, maxOffset], maxOffset, rfl, by decide, by decide⟩
  obtain ⟨-, -, -, hlimit, -, horder⟩ := positions_are_offsets l
  obtain ⟨hsum, hpast⟩ := hlimit maxOffset (Nat.le_refl _) 1 1
  have hnone := hpast maxOffset rfl (by decide)
  obtain ⟨-, hcompare, -⟩ := horder 0 maxOffset (Nat.zero_le _) (Nat.le_refl _)
  exact ⟨l, rfl, rfl, rfl, hsum.trans hnone, hnone, hcompare.trans (by decide)⟩

end LineTable

end XmlLocate
