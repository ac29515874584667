import XmlLocate.LocatedText
import XmlLocate.Proofs.Forest

/-!
# Spans are slices of their text

**Theorem (`scan_slices`).** In a scan that succeeds, every span is a slice of the text that is not empty
(`Sliced`): its offsets are in order and fall between characters, its head and its text are what the
bytes between them encode, and the range of its location covers the same offsets as the span.

Offsets count bytes, and a byte can lie inside a character. That none of the offsets of a span does is
no accident of the text: each is the length of some first tokens (`Covers`), and the tokens of a text
are pieces of it. `isValid_byteLength` and `extract_utf8Encode` turn this into statements about the
UTF-8 form of the text.
-/

namespace XmlLocate

/-! ## Offsets in the UTF-8 form of a text -/

theorem byteLength_eq_utf8ByteSize (t : List Char) : byteLength t = (String.ofList t).utf8ByteSize := by
  induction t with
  | nil => rfl
  | cons c t ih =>
    rw [byteLength_cons, ih, String.ofList_cons, String.utf8ByteSize_append,
      String.utf8ByteSize_singleton]

theorem size_utf8Encode (t : List Char) : t.utf8Encode.size = byteLength t := by
  rw [byteLength_eq_utf8ByteSize, ← String.toByteArray_ofList]
  rfl

/-- The end of a first part of a text is between two characters. -/
theorem isValid_byteLength (a b : List Char) :
    (String.Pos.Raw.mk (byteLength a)).IsValid (String.ofList (a ++ b)) := by
  rw [String.Pos.Raw.isValid_ofList]
  refine ⟨a.length, ?_⟩
  rw [List.take_left, byteLength_eq_utf8ByteSize]

/-- The bytes of a part of a text stand between its ends. -/
theorem extract_utf8Encode (a t b : List Char) :
    (a ++ t ++ b).utf8Encode.extract (byteLength a) (byteLength a + byteLength t) = t.utf8Encode := by
  rw [List.append_assoc, List.utf8Encode_append, List.utf8Encode_append, ← size_utf8Encode a]
  have := ByteArray.extract_append_size_add (a := a.utf8Encode) (b := t.utf8Encode ++ b.utf8Encode)
    (i := 0) (j := byteLength t)
  rw [Nat.add_zero] at this
  rw [this, ← size_utf8Encode t]
  exact ByteArray.extract_append_eq_left rfl

/-! ## The tokens under a span -/

/-- The span `s` reaches from the beginning of the token `k`, its head, to the end of the tokens in
`inner`; the tokens in `before` stand before it. -/
structure Covers (n offset : Nat) (before : List Token) (k : Token) (inner : List Token)
    (s : Span) : Prop where
  start : s.start = offset + lengthOf before
  headEnd : s.headEndIn n = s.start + k.length
  stop : s.stopIn n = s.start + lengthOf (k :: inner)
  ends : s.headEnd.isSome → s.stop.isSome

variable {n : Nat}

theorem Covers.prepend {offset : Nat} {xs before inner : List Token} {k : Token} {s : Span}
    (h : Covers n (offset + lengthOf xs) before k inner s) :
    Covers n offset (xs ++ before) k inner s := by
  refine ⟨?_, h.headEnd, h.stop, h.ends⟩
  rw [h.start, lengthOf_append, Nat.add_assoc]

theorem covers_of_leafSpans {sequence offset : Nat} {k : Token} (hk : k.isLeaf)
    (hend : k.complete = false → offset + k.length = n) {s : Span}
    (hs : s ∈ leafSpans sequence offset k) : Covers n offset [] k [] s := by
  obtain ⟨hstart, hstop⟩ := bounds_leafSpans hend hs
  have hhead : s.headEnd = none ∨ s.headEnd = some (offset + k.length) ∧ s.stop.isSome := by
    by_cases hkind : s.kind = .element
    · right
      cases isElement_of_leafSpans hk hs hkind with
      | pair pre o inner c post hks =>
        have := congrArg List.length hks
        simp only [List.length_append, List.length_cons, List.length_nil] at this
        omega
      | empty pre j post hks _ _ _ hhead hstop =>
        obtain ⟨rfl, rfl, -⟩ : pre = [] ∧ k = j ∧ post = [] := by
          cases pre <;> simp_all
        rw [hstart] at hhead
        exact ⟨hhead, by simp [hstop]⟩
    · left
      unfold leafSpans at hs
      cases hf : k.kind? with
      | none => simp [hf] at hs
      | some kind =>
        simp only [hf, List.mem_singleton] at hs
        subst hs
        exact if_neg hkind
  refine ⟨hstart, ?_, ?_, ?_⟩
  · rcases hhead with hhead | ⟨hhead, -⟩
    · rw [Span.headEndIn, hhead, Option.getD_none, hstop, hstart]
    · rw [Span.headEndIn, hhead, Option.getD_some, hstart]
  · rw [hstop, hstart, lengthOf_cons, lengthOf_nil, Nat.add_zero]
  · intro h
    rcases hhead with hhead | ⟨-, hstop⟩
    · simp [hhead] at h
    · exact hstop

theorem exists_covers {ks : List Token} (h : Balanced ks) {sequence offset : Nat}
    (hf : Fits n offset ks) {s : Span} (hs : s ∈ spansOf sequence offset ks) :
    ∃ before k inner behind, ks = before ++ k :: inner ++ behind ∧
      Covers n offset before k inner s := by
  induction h generalizing sequence offset with
  | nil => simp [spansOf] at hs
  | @leaf k ks hk _ ih =>
    rw [spansOf_leaf hk, List.mem_append] at hs
    rcases hs with hs | hs
    · exact ⟨[], k, [], ks, rfl, covers_of_leafSpans hk hf.head.2 hs⟩
    · obtain ⟨before, j, inner, behind, rfl, hcovers⟩ := ih hf.tail hs
      refine ⟨[k] ++ before, j, inner, behind, by simp, Covers.prepend ?_⟩
      simpa using hcovers
  | @element o c inner rest ho hc hi _ ihi ihr =>
    rw [spansOf_element ho hc hi, List.mem_cons, List.mem_append] at hs
    rcases hs with rfl | hs | hs
    · refine ⟨[], o, inner ++ [c], rest, by simp, rfl, rfl, ?_, fun _ => rfl⟩
      simp [Span.stopIn, elementSpan, Nat.add_assoc]
    · obtain ⟨before, j, inner', behind, rfl, hcovers⟩ := ihi hf.tail.left hs
      refine ⟨[o] ++ before, j, inner', behind ++ c :: rest, by simp, Covers.prepend ?_⟩
      simpa using hcovers
    · obtain ⟨before, j, inner', behind, rfl, hcovers⟩ := ihr hf.tail.right.tail hs
      refine ⟨o :: (inner ++ [c]) ++ before, j, inner', behind, by simp, Covers.prepend ?_⟩
      simpa [Nat.add_assoc] using hcovers

/-- The tokens under a span of a scan. -/
theorem exists_covers_of_scan {source : List Char} {r : Scan} (h : scan source = .ok r) {s : Span}
    (hs : s ∈ r.spans) : ∃ before k inner behind, Token.lex source = before ++ k :: inner ++ behind ∧
      Covers (byteLength source) 0 before k inner s := by
  obtain ⟨hb, hr⟩ := scan_eq_ok_iff.mp h
  have hmem : s ∈ spansOf 0 0 (Token.lex source) := by
    rw [hr] at hs
    exact List.mem_toArray.mp hs
  exact exists_covers hb (fits_lex source) hmem

theorem slice?_of_tokens {source : List Char} {before inner behind : List Token}
    (h : Token.lex source = before ++ inner ++ behind) :
    slice? source (lengthOf before) (lengthOf before + lengthOf inner) =
      some (inner.flatMap Token.text) := by
  have htext := Token.texts_lex source
  rw [h, List.flatMap_append, List.flatMap_append] at htext
  have := slice?_append (before.flatMap Token.text) (inner.flatMap Token.text)
    (behind.flatMap Token.text)
  rwa [htext, byteLength_append] at this

theorem isValid_lengthOf {source : List Char} {before behind : List Token}
    (h : Token.lex source = before ++ behind) :
    (String.Pos.Raw.mk (lengthOf before)).IsValid (String.ofList source) := by
  have htext := Token.texts_lex source
  rw [h, List.flatMap_append] at htext
  rw [← htext]
  exact isValid_byteLength _ _

theorem extract_of_tokens {source : List Char} {before inner behind : List Token}
    (h : Token.lex source = before ++ inner ++ behind) :
    source.utf8Encode.extract (lengthOf before) (lengthOf before + lengthOf inner) =
      (inner.flatMap Token.text).utf8Encode := by
  have htext := Token.texts_lex source
  rw [h, List.flatMap_append, List.flatMap_append] at htext
  rw [← htext]
  exact extract_utf8Encode _ _ _

/-! ## Slices -/

/-- The span `s` is a slice of the text, and its location says so. -/
structure Sliced (source : List Char) (lines : LineTable) (s : Span) : Prop where
  start_lt : s.start < s.stopIn (byteLength source)
  stop_le : s.stopIn (byteLength source) ≤ byteLength source
  headEnd : ∀ h, s.headEnd = some h → s.start < h ∧ ∃ e, s.stop = some e ∧ h ≤ e
  /-- The offsets are between characters. -/
  start_isValid : (String.Pos.Raw.mk s.start).IsValid (String.ofList source)
  headEnd_isValid : ∀ h, s.headEnd = some h →
    (String.Pos.Raw.mk h).IsValid (String.ofList source)
  stop_isValid :
    (String.Pos.Raw.mk (s.stopIn (byteLength source))).IsValid (String.ofList source)
  /-- There is a head and a text, which are the bytes between the offsets, and the text begins with
  the head. -/
  texts : ∃ head text, (Location.mk s lines source).head? = some head ∧
    (Location.mk s lines source).text? = some text ∧ head <+: text ∧
    source.utf8Encode.extract s.start (s.headEndIn (byteLength source)) = head.utf8Encode ∧
    source.utf8Encode.extract s.start (s.stopIn (byteLength source)) = text.utf8Encode ∧
    (Location.mk s lines source).range.length = byteLength text
  /-- The range does not go backwards. -/
  range_le : (compare (Location.mk s lines source).range.start
    (Location.mk s lines source).range.stop).isLE
  range_contains : ∀ p,
    (Location.mk s lines source).range.contains p = s.encloses p (byteLength source)

theorem Position.isLE_compare {p q : Position} (h : p.offset < q.offset) : (compare p q).isLE := by
  rw [show compare p q = instOrdPosition.ord p q from rfl, instOrdPosition.ord,
    Nat.compare_eq_lt.mpr h]
  rfl

section

variable {source : List Char} {lines : LineTable} {before inner behind : List Token} {k : Token}
  {s : Span}

theorem Covers.head?_eq (h : Covers (byteLength source) 0 before k inner s)
    (hks : Token.lex source = before ++ k :: inner ++ behind)
    (hl : lines.length = byteLength source) :
    (Location.mk s lines source).head? = some k.text := by
  have hk : Token.lex source = before ++ [k] ++ (inner ++ behind) := by simp [hks]
  have hstart : s.start = lengthOf before := by rw [h.start, Nat.zero_add]
  rw [Location.head?, Location.startOffset, hl, h.headEnd, hstart]
  simpa using slice?_of_tokens hk

theorem Covers.text?_eq (h : Covers (byteLength source) 0 before k inner s)
    (hks : Token.lex source = before ++ k :: inner ++ behind)
    (hl : lines.length = byteLength source) :
    (Location.mk s lines source).text? = some ((k :: inner).flatMap Token.text) := by
  have hstart : s.start = lengthOf before := by rw [h.start, Nat.zero_add]
  rw [Location.text?, Location.startOffset, Location.stopOffset, hl, h.stop, hstart]
  exact slice?_of_tokens hks

theorem Location.offset_range (hl : lines.length = byteLength source)
    (hlt : s.start < s.stopIn (byteLength source))
    (hle : s.stopIn (byteLength source) ≤ byteLength source) :
    (Location.mk s lines source).range.start.offset = s.start ∧
      (Location.mk s lines source).range.stop.offset = s.stopIn (byteLength source) := by
  constructor
  · show min s.start lines.length = s.start
    omega
  · show min (s.stopIn lines.length) lines.length = _
    rw [hl]
    exact Nat.min_eq_left hle

end

/-- Every span of a scan has a head. -/
theorem exists_head?_of_scan {source : List Char} {r : Scan} (h : scan source = .ok r) {s : Span}
    (hs : s ∈ r.spans) : ∃ head, (Location.mk s r.lines source).head? = some head := by
  obtain ⟨before, k, inner, behind, hks, hcovers⟩ := exists_covers_of_scan h hs
  exact ⟨k.text, hcovers.head?_eq hks (length_lines_of_scan h)⟩

/-- **Every span of a scan is a slice of the text.** -/
theorem scan_slices {source : List Char} {r : Scan} (h : scan source = .ok r) {s : Span}
    (hs : s ∈ r.spans) : Sliced source r.lines s := by
  have hlength := length_lines_of_scan h
  obtain ⟨before, k, inner, behind, hks, hcovers⟩ := exists_covers_of_scan h hs
  obtain ⟨hlt, hle⟩ := bounds_of_scan h hs
  obtain ⟨hrange_start, hrange_stop⟩ := Location.offset_range hlength hlt hle
  -- Each offset of the span is the length of some first tokens.
  have hk : Token.lex source = before ++ [k] ++ (inner ++ behind) := by simp [hks]
  have hpos : 0 < k.length := (fits_lex source (lengthOf before, k) (by simp [hks])).1
  have hstart : s.start = lengthOf before := by rw [hcovers.start, Nat.zero_add]
  have hhead : s.headEndIn (byteLength source) = lengthOf before + k.length := by
    rw [hcovers.headEnd, hstart]
  have hstop : s.stopIn (byteLength source) = lengthOf before + lengthOf (k :: inner) := by
    rw [hcovers.stop, hstart]
  have hends : ∀ h, s.headEnd = some h → h = lengthOf before + k.length := by
    intro h hh
    rw [← hhead, Span.headEndIn, hh, Option.getD_some]
  refine
    { start_lt := hlt
      stop_le := hle
      headEnd := ?_
      start_isValid := ?_
      headEnd_isValid := ?_
      stop_isValid := ?_
      texts := ⟨k.text, (k :: inner).flatMap Token.text, hcovers.head?_eq hks hlength,
        hcovers.text?_eq hks hlength, ?_, ?_, ?_, ?_⟩
      range_le := ?_
      range_contains := ?_ }
  · intro h hh
    obtain rfl := hends h hh
    obtain ⟨e, he⟩ := Option.isSome_iff_exists.mp (hcovers.ends (by simp [hh]))
    rw [Span.stopIn, he, Option.getD_some, lengthOf_cons] at hstop
    exact ⟨by omega, e, he, by omega⟩
  · rw [hstart]
    exact isValid_lengthOf (by rw [hks, List.append_assoc])
  · intro h hh
    obtain rfl := hends h hh
    have := isValid_lengthOf hk
    simpa using this
  · rw [hstop, ← lengthOf_append]
    exact isValid_lengthOf hks
  · rw [List.flatMap_cons]
    exact List.prefix_append _ _
  · rw [hstart, hhead]
    simpa using extract_of_tokens hk
  · rw [hstart, hstop]
    exact extract_of_tokens hks
  · rw [Range.length, hrange_start, hrange_stop, hstop, hstart, Nat.add_sub_cancel_left]
    rfl
  · apply Position.isLE_compare
    rw [hrange_start, hrange_stop]
    exact hlt
  · intro p
    rw [Range.contains, hrange_start, hrange_stop]
    rfl

/-- Among characters of several bytes, behind a byte order mark. -/
theorem sliced_multibyte :
    Sliced "\uFEFF<é>日\x00</é><!--".toList (.ofText "\uFEFF<é>日\x00</é><!--".toList)
      ⟨1, .element, 3, some 7, some 16⟩ :=
  scan_slices (r := ⟨#[⟨0, .text, 0, none, some 3⟩, ⟨1, .element, 3, some 7, some 16⟩,
    ⟨2, .text, 7, none, some 11⟩, ⟨3, .comment, 16, none, none⟩], _⟩) (by cbv) (by simp)

end XmlLocate
