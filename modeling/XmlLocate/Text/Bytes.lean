/-!
# Byte lengths and byte slices

A source text is a list of characters, while its offsets count the bytes of its UTF-8 form. A slice
between two offsets therefore exists only if both fall between characters.

**Main statement (`slice?_append`).** Cutting at the byte lengths of the parts gives back the parts:
in `a ++ b ++ c` the slice from the end of `a` to the end of `b` is `b`.
-/

namespace XmlLocate

/-- The number of bytes a text takes in UTF-8. -/
def byteLength (t : List Char) : Nat := t.foldr (fun c n => c.utf8Size + n) 0

@[simp] theorem byteLength_nil : byteLength [] = 0 := rfl

@[simp] theorem byteLength_cons (c : Char) (t : List Char) :
    byteLength (c :: t) = c.utf8Size + byteLength t := rfl

@[simp] theorem byteLength_append (a b : List Char) :
    byteLength (a ++ b) = byteLength a + byteLength b := by
  induction a with
  | nil => simp
  | cons c a ih => simp [ih, Nat.add_assoc]

/-! ## Slices -/

/-- What is left of a text after its first `n` bytes, if these end between characters. -/
def dropBytes? : Nat → List Char → Option (List Char)
  | 0, t => some t
  | _ + 1, [] => none
  | n + 1, c :: t => if c.utf8Size ≤ n + 1 then dropBytes? (n + 1 - c.utf8Size) t else none

/-- The first `n` bytes of a text, if these end between characters. -/
def takeBytes? : Nat → List Char → Option (List Char)
  | 0, _ => some []
  | _ + 1, [] => none
  | n + 1, c :: t =>
    if c.utf8Size ≤ n + 1 then (takeBytes? (n + 1 - c.utf8Size) t).map (c :: ·) else none

/-- The part of a text from byte `start` to byte `stop`. There is none if the two are out of order,
beyond the text or inside a character. -/
def slice? (t : List Char) (start stop : Nat) : Option (List Char) :=
  if start ≤ stop then (dropBytes? start t).bind (takeBytes? (stop - start)) else none

theorem dropBytes?_append (a b : List Char) : dropBytes? (byteLength a) (a ++ b) = some b := by
  induction a with
  | nil => rw [byteLength_nil, dropBytes?.eq_def]; rfl
  | cons c a ih =>
    obtain ⟨n, hn⟩ := Nat.exists_eq_add_one.mpr (Nat.add_pos_left c.utf8Size_pos (byteLength a))
    rw [byteLength_cons, hn, List.cons_append, dropBytes?, if_pos (by omega), ← hn,
      Nat.add_sub_cancel_left]
    exact ih

theorem takeBytes?_append (a b : List Char) : takeBytes? (byteLength a) (a ++ b) = some a := by
  induction a with
  | nil => rw [byteLength_nil, takeBytes?.eq_def]
  | cons c a ih =>
    obtain ⟨n, hn⟩ := Nat.exists_eq_add_one.mpr (Nat.add_pos_left c.utf8Size_pos (byteLength a))
    rw [byteLength_cons, hn, List.cons_append, takeBytes?, if_pos (by omega), ← hn,
      Nat.add_sub_cancel_left, ih]
    rfl

theorem slice?_append (a b c : List Char) :
    slice? (a ++ b ++ c) (byteLength a) (byteLength (a ++ b)) = some b := by
  have h : byteLength (a ++ b) - byteLength a = byteLength b := by simp
  simp only [slice?, h, List.append_assoc, dropBytes?_append, Option.bind_some, takeBytes?_append]
  exact if_pos (by simp)

end XmlLocate
