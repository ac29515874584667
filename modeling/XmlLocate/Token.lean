import XmlLocate.Text.Search

/-!
# Tokens

A source text is cut into tokens: tags, comments, CDATA sections, processing instructions,
declarations and the runs of text between them. What stands at the beginning of the rest of the text
decides the next token; nothing is checked beyond finding where it ends.

**Nothing is lost (`texts_lex`).** The texts of the tokens, put together, are the source text.
-/

namespace XmlLocate

/-! ## Declarations -/

/-- What begins at `c`, with `t` behind it, and hides all that it encloses from the declaration
around it: a quoted string, or between brackets a comment or processing instruction. Given are the
number of characters that still belong to its beginning, and the delimiter that ends it. -/
def enclosure? (depth : Nat) (c : Char) (t : List Char) : Option (Nat × List Char) :=
  if isQuote c then some (0, [c])
  else if depth = 0 ∨ c ≠ '<' then none
  else if ['!', '-', '-'].isPrefixOf t then some (3, ['-', '-', '>'])
  else if ['?'].isPrefixOf t then some (1, ['?', '>'])
  else none

/-- The bracket depth after a character. A closing bracket at depth 0 is ignored. -/
def depthAfter (depth : Nat) (c : Char) : Nat :=
  if c = '[' then depth + 1 else if c = ']' then depth - 1 else depth

/-- Cuts a text, at a bracket depth of a declaration, around the `>` that ends the declaration: the
first one outside brackets and enclosures. -/
def splitDeclaration (depth : Nat) : List Char → Option (List Char × List Char)
  | [] => none
  | c :: t =>
    match enclosure? depth c t with
    | some (n, mark) =>
      match h : splitAround mark (t.drop n) with
      | none => none
      | some (a, b) =>
        have : b.length < t.length + 1 := by
          have := length_splitAround h
          rw [List.length_drop] at this
          omega
        (splitDeclaration depth b).map fun (a', r) => (c :: t.take n ++ a ++ mark ++ a', r)
    | none =>
      if c = '>' ∧ depth = 0 then some ([], t)
      else (splitDeclaration (depthAfter depth c) t).map fun (a, b) => (c :: a, b)
termination_by t => t.length

theorem splitDeclaration_eq {depth : Nat} {t a b : List Char}
    (h : splitDeclaration depth t = some (a, b)) : a ++ ['>'] ++ b = t := by
  fun_induction splitDeclaration depth t generalizing a b with
  | case1 => simp at h
  | case2 => simp at h
  | case3 depth c t n mark _ a' b' h' _ ih =>
    obtain ⟨⟨a'', b''⟩, hs, he⟩ := Option.map_eq_some_iff.mp h
    obtain ⟨rfl, rfl⟩ := Prod.mk.inj he
    calc c :: t.take n ++ a' ++ mark ++ a'' ++ ['>'] ++ b''
        = c :: t.take n ++ (a' ++ mark ++ (a'' ++ ['>'] ++ b'')) := by simp
      _ = c :: t.take n ++ t.drop n := by rw [ih hs, splitAround_eq h']
      _ = c :: t := by rw [List.cons_append, List.take_append_drop]
  | case4 depth c t _ hc =>
    obtain ⟨rfl, rfl⟩ := Prod.mk.inj (Option.some.inj h)
    rw [hc.1]
    rfl
  | case5 depth c t _ _ ih =>
    obtain ⟨⟨a', b'⟩, hs, he⟩ := Option.map_eq_some_iff.mp h
    obtain ⟨rfl, rfl⟩ := Prod.mk.inj he
    rw [List.cons_append, List.cons_append, ih hs]

/-! ## What a `<` opens -/

inductive Opening where
  | closeTag | instruction | comment | cdata | declaration | startTag
  deriving DecidableEq, Repr

namespace Opening

/-- The characters that open it. -/
def mark : Opening → List Char
  | .closeTag => ['<', '/']
  | .instruction => ['<', '?']
  | .comment => ['<', '!', '-', '-']
  | .cdata => ['<', '!', '[', 'C', 'D', 'A', 'T', 'A', '[']
  | .declaration => ['<', '!']
  | .startTag => ['<']

/-- What is opened at the `<` that begins a text. -/
def ofText (t : List Char) : Opening :=
  if closeTag.mark.isPrefixOf t then .closeTag
  else if instruction.mark.isPrefixOf t then .instruction
  else if comment.mark.isPrefixOf t then .comment
  else if cdata.mark.isPrefixOf t then .cdata
  else if declaration.mark.isPrefixOf t then .declaration
  else .startTag

/-- The delimiter that ends it. -/
def close : Opening → List Char
  | .instruction => ['?', '>']
  | .comment => ['-', '-', '>']
  | .cdata => [']', ']', '>']
  | .closeTag | .declaration | .startTag => ['>']

theorem length_mark_pos (o : Opening) : 0 < o.mark.length := by cases o <;> simp [mark]

theorem length_close_pos (o : Opening) : 0 < o.close.length := by cases o <;> simp [close]

/-- Cuts the text behind the mark around the delimiter that ends what was opened. -/
def split (o : Opening) : List Char → Option (List Char × List Char) :=
  match o with
  | .declaration => splitDeclaration 0
  | .startTag => splitTag none
  | .closeTag | .instruction | .comment | .cdata => splitAround o.close

theorem split_eq {o : Opening} {t a b : List Char} (h : o.split t = some (a, b)) :
    a ++ o.close ++ b = t := by
  cases o
  case declaration => exact splitDeclaration_eq h
  case startTag => exact splitTag_eq h
  all_goals exact splitAround_eq h

theorem mark_prefix_ofText (t : List Char) : (ofText ('<' :: t)).mark <+: '<' :: t := by
  rw [← List.isPrefixOf_iff_prefix, ofText]
  split
  · assumption
  split
  · assumption
  split
  · assumption
  split
  · assumption
  split
  · assumption
  · rfl

end Opening

/-! ## Tokens -/

/-- The kinds of tokens. An `emptyTag` is a start tag that ends in `/>`. -/
inductive TokenForm where
  | text | closeTag | instruction | comment | cdata | declaration | startTag | emptyTag
  deriving DecidableEq, Repr

/-- A piece of the source text. It is complete if its end was found: a delimiter, or for text the
`<` behind it. Only the last token of a text can be incomplete. -/
structure Token where
  form : TokenForm
  text : List Char
  complete : Bool
  deriving DecidableEq, Repr

/-- The form of a token, from what opens it and what stands between its delimiters. -/
def Opening.form (o : Opening) (body : List Char) : TokenForm :=
  match o with
  | .closeTag => .closeTag
  | .instruction => .instruction
  | .comment => .comment
  | .cdata => .cdata
  | .declaration => .declaration
  | .startTag => if body.getLast? = some '/' then .emptyTag else .startTag

namespace Token

/-- The token at the `<` that begins a text, and what follows it. -/
def markup (t : List Char) : Token × List Char :=
  let o := Opening.ofText t
  match o.split (t.drop o.mark.length) with
  | some (a, b) => (⟨o.form a, o.mark ++ a ++ o.close, true⟩, b)
  | none => (⟨o.form [], t, false⟩, [])

/-- The run of text that begins a text, and what follows it. -/
def run (t : List Char) : Token × List Char :=
  let b := t.dropWhile (· != '<')
  (⟨.text, t.takeWhile (· != '<'), !b.isEmpty⟩, b)

/-- The token that begins a text, and what follows it. -/
def next (t : List Char) : Token × List Char :=
  if t.head? = some '<' then markup t else run t

theorem next_append (t : List Char) : (next t).1.text ++ (next t).2 = t := by
  unfold next
  split
  · rename_i h
    obtain ⟨t, rfl⟩ : ∃ u, t = '<' :: u := by
      cases t with
      | nil => simp at h
      | cons c u => simp only [List.head?_cons, Option.some.injEq] at h; exact ⟨u, by rw [h]⟩
    unfold markup
    have hm := List.prefix_iff_eq_append.mp (Opening.mark_prefix_ofText t)
    dsimp only
    split
    · rename_i a b hs
      rw [List.append_assoc, List.append_assoc, ← List.append_assoc a, Opening.split_eq hs, hm]
    · simp
  · simp [run]

theorem text_next_ne_nil {t : List Char} (h : t ≠ []) : (next t).1.text ≠ [] := by
  obtain ⟨c, t, rfl⟩ := List.exists_cons_of_ne_nil h
  unfold next
  split
  · unfold markup
    dsimp only
    split
    · cases Opening.ofText (c :: t) <;> simp [Opening.mark]
    · simp
  · rename_i hc
    have : (c != '<') = true := by simpa using hc
    simp [run, this]

theorem length_next_lt {t : List Char} (h : t ≠ []) : (next t).2.length < t.length := by
  have h1 := congrArg List.length (next_append t)
  have h2 := List.length_pos_iff.mpr (text_next_ne_nil h)
  rw [List.length_append] at h1
  omega

/-- The tokens of a text. -/
def lex (t : List Char) : List Token :=
  if h : t = [] then []
  else
    have := length_next_lt h
    (next t).1 :: lex (next t).2
termination_by t.length

theorem texts_lex (t : List Char) : (lex t).flatMap Token.text = t := by
  fun_induction lex t with
  | case1 => rfl
  | case2 t h _ ih => rw [List.flatMap_cons, ih, next_append]

end Token

end XmlLocate
