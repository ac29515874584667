/-!
# Cutting a text around a delimiter

Each search gives the text before a delimiter and the text behind it, or nothing if the delimiter
does not occur. **Nothing is lost (`splitAround_eq`, `splitTag_eq`): the two parts with the
delimiter between them are the text.**
-/

namespace XmlLocate

/-- Cuts a text around the first occurrence of `mark`. -/
def splitAround (mark : List Char) : List Char → Option (List Char × List Char)
  | [] => none
  | c :: t =>
    if mark.isPrefixOf (c :: t) then some ([], (c :: t).drop mark.length)
    else (splitAround mark t).map fun (a, b) => (c :: a, b)

theorem splitAround_eq {mark t a b : List Char} (h : splitAround mark t = some (a, b)) :
    a ++ mark ++ b = t := by
  induction t generalizing a b with
  | nil => simp [splitAround] at h
  | cons c t ih =>
    rw [splitAround] at h
    split at h
    · obtain ⟨rfl, rfl⟩ := Prod.mk.inj (Option.some.inj h)
      rename_i hm
      exact (List.prefix_iff_eq_append.mp (List.isPrefixOf_iff_prefix.mp hm))
    · obtain ⟨⟨a', b'⟩, h', he⟩ := Option.map_eq_some_iff.mp h
      obtain ⟨rfl, rfl⟩ := Prod.mk.inj he
      rw [List.cons_append, List.cons_append, ih h']

theorem length_splitAround {mark t a b : List Char} (h : splitAround mark t = some (a, b)) :
    b.length ≤ t.length := by
  rw [← splitAround_eq h, List.length_append]
  omega

/-! ## Quotes -/

def isQuote (c : Char) : Bool := c == '\'' || c == '"'

/-- Cuts a text around the first `>` that stands outside quotes; `quote` is the quote that is open
at its beginning. -/
def splitTag : Option Char → List Char → Option (List Char × List Char)
  | _, [] => none
  | some q, c :: t =>
    (splitTag (if c = q then none else some q) t).map fun (a, b) => (c :: a, b)
  | none, c :: t =>
    if c = '>' then some ([], t)
    else (splitTag (if isQuote c then some c else none) t).map fun (a, b) => (c :: a, b)

theorem splitTag_eq {quote : Option Char} {t a b : List Char}
    (h : splitTag quote t = some (a, b)) : a ++ ['>'] ++ b = t := by
  induction t generalizing quote a b with
  | nil => cases quote <;> simp [splitTag] at h
  | cons c t ih =>
    cases quote with
    | some q =>
      obtain ⟨⟨a', b'⟩, h', he⟩ := Option.map_eq_some_iff.mp h
      obtain ⟨rfl, rfl⟩ := Prod.mk.inj he
      rw [List.cons_append, List.cons_append, ih h']
    | none =>
      rw [splitTag] at h
      split at h
      · obtain ⟨rfl, rfl⟩ := Prod.mk.inj (Option.some.inj h)
        rename_i hc
        rw [hc]
        rfl
      · obtain ⟨⟨a', b'⟩, h', he⟩ := Option.map_eq_some_iff.mp h
        obtain ⟨rfl, rfl⟩ := Prod.mk.inj he
        rw [List.cons_append, List.cons_append, ih h']

end XmlLocate
