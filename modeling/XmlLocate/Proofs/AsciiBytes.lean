import XmlLocate.Proofs.LineStarts
import XmlLocate.Proofs.Stepping
import XmlLocate.Scan.Bytes.Turns

/-!
# ASCII in the bytes of a text

A byte below 128 is a character by itself, so that searches for ASCII characters find the same in a text
and in its bytes: the first of some characters (`findIdx?_textBytes`), a mark at the beginning
(`asciiBytes_prefix_iff`) or the first mark (`findBytes?_textBytes`). Jumps over lines record the line
breaks of the text that they pass (`exists_passLines`).
-/

namespace XmlLocate

/-- The character is a byte by itself. -/
def IsAscii (c : Char) : Prop := c.toNat < 128

instance (c : Char) : Decidable (IsAscii c) := inferInstanceAs (Decidable (_ < _))

theorem utf8EncodeChar_of_isAscii {c : Char} (h : IsAscii c) :
    String.utf8EncodeChar c = [c.toUInt8] := by
  have hle : c.val.toNat ≤ 127 := Nat.le_of_lt_succ h
  unfold String.utf8EncodeChar
  dsimp only
  rw [if_pos hle]
  rfl

theorem utf8Size_of_isAscii {c : Char} (h : IsAscii c) : c.utf8Size = 1 := by
  rw [← String.length_utf8EncodeChar, utf8EncodeChar_of_isAscii h]
  rfl

theorem toNat_toUInt8 {c : Char} (h : IsAscii c) : c.toUInt8.toNat = c.toNat := by
  show c.toNat % 256 = c.toNat
  exact Nat.mod_eq_of_lt (Nat.lt_trans h (by decide))

theorem eq_of_toUInt8_mem {a c : Char} (ha : IsAscii a)
    (h : a.toUInt8 ∈ String.utf8EncodeChar c) : c = a := by
  have hbyte := toNat_toUInt8 ha
  refine Char.ext (UInt32.toNat_inj.mp ?_)
  rw [val_eq_of_mem_utf8EncodeChar (hbyte.trans_lt ha) h, hbyte]
  rfl

theorem toUInt8_inj {a c : Char} (ha : IsAscii a) (hc : IsAscii c) :
    c.toUInt8 = a.toUInt8 ↔ c = a := by
  constructor
  · intro h
    apply eq_of_toUInt8_mem ha
    rw [utf8EncodeChar_of_isAscii hc, h]
    exact List.mem_singleton_self _
  · rintro rfl
    rfl

/-- The bytes of the other characters are no ASCII characters. -/
theorem le_of_mem_utf8EncodeChar {c : Char} (hc : ¬ IsAscii c) {b : UInt8}
    (hb : b ∈ String.utf8EncodeChar c) : 128 ≤ b.toNat := by
  by_contra hlt
  have := val_eq_of_mem_utf8EncodeChar (Nat.lt_of_not_le hlt) hb
  exact hc (show c.val.toNat < 128 by omega)

theorem textBytes_append (a b : List Char) : textBytes (a ++ b) = textBytes a ++ textBytes b :=
  List.flatMap_append

theorem drop_textBytes (a b : List Char) : (textBytes (a ++ b)).drop (byteLength a) = textBytes b := by
  rw [textBytes_append, ← length_textBytes, List.drop_left]

theorem exists_utf8EncodeChar (c : Char) : ∃ b bs, String.utf8EncodeChar c = b :: bs := by
  refine List.exists_cons_of_ne_nil fun hnil => ?_
  have := c.utf8Size_pos
  rw [← String.length_utf8EncodeChar, hnil] at this
  exact Nat.lt_irrefl 0 this

theorem isEmpty_textBytes (t : List Char) : (textBytes t).isEmpty = t.isEmpty := by
  cases t with
  | nil => rfl
  | cons c t =>
    obtain ⟨b, bs, h⟩ := exists_utf8EncodeChar c
    rw [textBytes_cons, h]
    rfl

theorem textBytes_of_isAscii {t : List Char} (h : ∀ c ∈ t, IsAscii c) : textBytes t = asciiBytes t := by
  induction t with
  | nil => rfl
  | cons c t ih =>
    rw [textBytes_cons, utf8EncodeChar_of_isAscii (h c List.mem_cons_self),
      ih fun d hd => h d (List.mem_cons_of_mem _ hd)]
    rfl

theorem byteLength_of_isAscii {t : List Char} (h : ∀ c ∈ t, IsAscii c) : byteLength t = t.length := by
  rw [← length_textBytes, textBytes_of_isAscii h, length_asciiBytes]

/-- The characters are ASCII, and none of them ends a line. -/
def isAsciiLine (t : List Char) : Bool := t.all fun c => decide (IsAscii c) && !decide (IsTerminator c)

theorem isAscii_of_isAsciiLine {t : List Char} (h : isAsciiLine t) : ∀ c ∈ t, IsAscii c := by
  intro c hc
  have := List.all_eq_true.mp h c hc
  rw [Bool.and_eq_true] at this
  exact of_decide_eq_true this.1

theorem not_isTerminator_of_isAsciiLine {t : List Char} (h : isAsciiLine t) : ∀ c ∈ t, ¬ IsTerminator c := by
  intro c hc
  have := List.all_eq_true.mp h c hc
  rw [Bool.and_eq_true] at this
  simpa using this.2

theorem isAsciiLine_close (o : Opening) : isAsciiLine o.close := by cases o <;> decide

theorem isAsciiLine_mark (o : Opening) : isAsciiLine o.mark := by cases o <;> decide

/-! ## Searches -/

/-- A test of bytes that no character but those in `test` passes with any of its bytes. -/
def TestsFor (byteTest : UInt8 → Bool) (test : Char → Bool) : Prop :=
  (∀ c, test c → IsAscii c ∧ byteTest c.toUInt8) ∧
    ∀ c, test c = false → ∀ b ∈ String.utf8EncodeChar c, byteTest b = false

theorem TestsFor.of_ascii {byteTest : UInt8 → Bool} {test : Char → Bool}
    (hascii : ∀ c, test c → IsAscii c) (hsame : ∀ c, IsAscii c → byteTest c.toUInt8 = test c)
    (hother : ∀ b : UInt8, 128 ≤ b.toNat → byteTest b = false) : TestsFor byteTest test := by
  constructor
  · intro c hc
    exact ⟨hascii c hc, by rw [hsame c (hascii c hc), hc]⟩
  · intro c hc b hb
    by_cases ha : IsAscii c
    · rw [utf8EncodeChar_of_isAscii ha] at hb
      rw [List.mem_singleton.mp hb, hsame c ha, hc]
    · exact hother b (le_of_mem_utf8EncodeChar ha hb)

theorem findIdx?_textBytes {byteTest : UInt8 → Bool} {test : Char → Bool}
    (h : TestsFor byteTest test) (t : List Char) :
    (textBytes t).findIdx? byteTest =
      if t.dropWhile (!test ·) = [] then none else some (byteLength (t.takeWhile (!test ·))) := by
  induction t with
  | nil => rfl
  | cons c t ih =>
    rw [textBytes_cons, List.findIdx?_append]
    by_cases hc : test c
    · obtain ⟨hascii, hbyte⟩ := h.1 c hc
      rw [utf8EncodeChar_of_isAscii hascii]
      simp [hc, hbyte]
    · have hc : test c = false := by simpa using hc
      have hnone : (String.utf8EncodeChar c).findIdx? byteTest = none :=
        List.findIdx?_eq_none_iff.mpr (h.2 c hc)
      rw [hnone, ih, List.dropWhile_cons_of_pos (by simp [hc]), List.takeWhile_cons_of_pos (by simp [hc]),
        String.length_utf8EncodeChar]
      split <;> simp [Nat.add_comm]

theorem asciiBytes_prefix_iff {p : List Char} (hp : ∀ c ∈ p, IsAscii c) (t : List Char) :
    asciiBytes p <+: textBytes t ↔ p <+: t := by
  constructor
  · intro h
    induction p generalizing t with
    | nil => exact List.nil_prefix
    | cons a p ih =>
      have ha := hp a List.mem_cons_self
      cases t with
      | nil => simp [asciiBytes] at h
      | cons c t =>
        obtain ⟨b, bs, hbs⟩ := exists_utf8EncodeChar c
        have hfirst : a.toUInt8 = b := by
          rw [textBytes_cons, hbs] at h
          exact (List.cons_prefix_cons.mp h).1
        obtain rfl := eq_of_toUInt8_mem (c := c) ha (by rw [hbs, hfirst]; exact List.mem_cons_self)
        rw [textBytes_cons, utf8EncodeChar_of_isAscii ha] at h
        have := ih (fun d hd => hp d (List.mem_cons_of_mem _ hd)) t (List.cons_prefix_cons.mp h).2
        exact List.cons_prefix_cons.mpr ⟨rfl, this⟩
  · rintro ⟨rest, rfl⟩
    rw [textBytes_append, textBytes_of_isAscii hp]
    exact List.prefix_append _ _

theorem singleton_prefix_iff_head? {α : Type} {a : α} {l : List α} : [a] <+: l ↔ l.head? = some a := by
  cases l with
  | nil => simp
  | cons b l => simp [eq_comm]

theorem head?_textBytes_iff {a : Char} (ha : IsAscii a) (t : List Char) :
    (textBytes t).head? = some a.toUInt8 ↔ t.head? = some a := by
  have h := asciiBytes_prefix_iff (p := [a]) (by simpa using ha) t
  rw [← singleton_prefix_iff_head?, ← singleton_prefix_iff_head?]
  exact h

theorem findBytes?_append {first : UInt8} {mark bytes : List UInt8} (h : first ∉ bytes)
    (rest : List UInt8) : findBytes? (first :: mark) (bytes ++ rest) =
      (findBytes? (first :: mark) rest).map (bytes.length + ·) := by
  induction bytes with
  | nil => simp
  | cons b bytes ih =>
    have hne : ¬ first :: mark <+: b :: (bytes ++ rest) := by
      intro hp
      exact h ((List.cons_prefix_cons.mp hp).1 ▸ List.mem_cons_self)
    rw [List.cons_append, findBytes?, if_neg (by rwa [List.isPrefixOf_iff_prefix]),
      ih fun hb => h (List.mem_cons_of_mem _ hb), Option.map_map]
    congr 1
    funext n
    simp only [Function.comp_apply, List.length_cons]
    omega

theorem findBytes?_textBytes {first : Char} {mark : List Char} (hmark : ∀ c ∈ first :: mark, IsAscii c)
    (t : List Char) : findBytes? (asciiBytes (first :: mark)) (textBytes t) =
      (splitAround (first :: mark) t).map fun p => byteLength p.1 := by
  have hfirst := hmark first List.mem_cons_self
  induction t with
  | nil => rfl
  | cons c t ih =>
    have hbegins := asciiBytes_prefix_iff hmark (c :: t)
    rw [splitAround]
    by_cases hc : c = first
    · subst hc
      rw [textBytes_cons, utf8EncodeChar_of_isAscii hfirst, List.singleton_append] at hbegins ⊢
      rw [findBytes?]
      by_cases hp : c :: mark <+: c :: t
      · rw [if_pos (List.isPrefixOf_iff_prefix.mpr (hbegins.mpr hp)),
          if_pos (List.isPrefixOf_iff_prefix.mpr hp)]
        rfl
      · rw [if_neg fun h => hp (hbegins.mp (List.isPrefixOf_iff_prefix.mp h)),
          if_neg fun h => hp (List.isPrefixOf_iff_prefix.mp h), ih, Option.map_map, Option.map_map]
        congr 1
        funext p
        simp [utf8Size_of_isAscii hfirst, Nat.add_comm]
    · have hnot : ¬ first :: mark <+: c :: t := fun hp => hc (List.cons_prefix_cons.mp hp).1.symm
      rw [textBytes_cons, if_neg fun h => hnot (List.isPrefixOf_iff_prefix.mp h)]
      show findBytes? (first.toUInt8 :: asciiBytes mark) _ = _
      rw [findBytes?_append fun hmem => hc (eq_of_toUInt8_mem hfirst hmem), String.length_utf8EncodeChar]
      show (findBytes? (asciiBytes (first :: mark)) _).map _ = _
      rw [ih, Option.map_map, Option.map_map]
      rfl

/-! ## Jumps over lines -/

theorem lineBreaks_of_forall {v : List Char} (h : ∀ c ∈ v, ¬ IsTerminator c) (base : Nat) :
    lineBreaks base v = [] := by
  induction v generalizing base with
  | nil => rfl
  | cons c v ih =>
    have hc := h c List.mem_cons_self
    have hnil := ih (fun d hd => h d (List.mem_cons_of_mem _ hd)) (base + c.utf8Size)
    rw [lineBreaks_cons (not_splitsPair_of_not_isTerminator hc [] v).2, hnil, List.append_nil]
    exact if_neg hc

theorem isAscii_of_isTerminator {c : Char} (h : IsTerminator c) : IsAscii c := by
  rcases h with rfl | rfl <;> decide

theorem lineBreaks_terminator {c : Char} {t : List Char} (hc : IsTerminator c)
    (h : ¬ SplitsPair [c] t) (base : Nat) :
    lineBreaks base (c :: t) = (base + 1) :: lineBreaks (base + 1) t := by
  have hbreak : (if c = '\n' ∨ c = '\r' then [base + 1] else []) = [base + 1] := if_pos hc
  rw [lineBreaks_cons h, hbreak, utf8Size_of_isAscii (isAscii_of_isTerminator hc)]
  rfl

theorem endsLine_toUInt8 {c : Char} (hc : IsAscii c) : endsLine c.toUInt8 = decide (IsTerminator c) := by
  rw [endsLine, Bool.eq_iff_iff, Bool.or_eq_true, beq_iff_eq, beq_iff_eq, decide_eq_true_iff,
    toUInt8_inj (by decide) hc, toUInt8_inj (by decide) hc]
  rfl

theorem ne_toUInt8_of_le {b : UInt8} (hb : 128 ≤ b.toNat) {a : Char} (ha : IsAscii a) :
    b ≠ a.toUInt8 := by
  rintro rfl
  rw [toNat_toUInt8 ha] at hb
  exact absurd ha (Nat.not_lt.mpr hb)

theorem endsLine_of_le {b : UInt8} (hb : 128 ≤ b.toNat) : endsLine b = false := by
  simp [endsLine, ne_toUInt8_of_le hb (a := '\n') (by decide),
    ne_toUInt8_of_le hb (a := '\r') (by decide)]

theorem testsFor_endsLine : TestsFor endsLine fun c => decide (IsTerminator c) :=
  .of_ascii (fun _ hc => isAscii_of_isTerminator (of_decide_eq_true hc))
    (fun _ hc => endsLine_toUInt8 hc) fun _ => endsLine_of_le

theorem bytesBetween?_textBytes (u v w : List Char) :
    bytesBetween? (textBytes (u ++ v ++ w)) (byteLength u) (byteLength (u ++ v)) =
      some (textBytes v) := by
  refine bytesBetween?_eq_some.mpr ⟨⟨by simp, ?_⟩, ?_⟩
  · rw [length_textBytes]
    simp
  · rw [List.append_assoc, drop_textBytes, textBytes_append, byteLength_append, Nat.add_sub_cancel_left,
      ← length_textBytes, List.take_left]

theorem getElem?_textBytes (u t : List Char) (k : Nat) :
    (textBytes (u ++ t))[byteLength u + k]? = (textBytes t)[k]? := by
  rw [textBytes_append, List.getElem?_append_right (by rw [length_textBytes]; omega), length_textBytes,
    Nat.add_sub_cancel_left]

/-- Behind a terminator the next line begins where it does in the text. -/
theorem lineBehind_textBytes {c : Char} (hc : IsTerminator c) (u t : List Char) :
    lineBehind (textBytes (u ++ c :: t)) (byteLength u) c.toUInt8 =
      if SplitsPair [c] t then byteLength (u ++ [c]) + 1 else byteLength (u ++ [c]) := by
  have hsize := utf8Size_of_isAscii (isAscii_of_isTerminator hc)
  have hnext : (textBytes (u ++ c :: t))[byteLength u + 1]? = (textBytes t).head? := by
    have := getElem?_textBytes (u ++ [c]) t 0
    rw [byteLength_append, byteLength_cons, hsize] at this
    rw [List.head?_eq_getElem?, ← this]
    simp
  have hpair : c.toUInt8 = '\r'.toUInt8 ∧
      (textBytes (u ++ c :: t))[byteLength u + 1]? = some '\n'.toUInt8 ↔ SplitsPair [c] t := by
    rw [hnext, head?_textBytes_iff (by decide), toUInt8_inj (by decide) (isAscii_of_isTerminator hc),
      SplitsPair]
    simp
  unfold lineBehind
  simp only [hpair, byteLength_append, byteLength_cons, byteLength_nil, hsize]

theorem SplitsPair.append_left {b w : List Char} (h : SplitsPair b w) (a : List Char) :
    SplitsPair (a ++ b) w := by
  refine ⟨?_, h.2⟩
  rw [List.getLast?_append, h.1]
  rfl

/-- A line that ends at `c` ends with a text `e`, which is a pair or `c` alone. -/
theorem exists_lineEnd {c : Char} {t w : List Char} (hc : IsTerminator c)
    (h : ¬ SplitsPair (c :: t) w) (u : List Char) :
    ∃ e rest, c :: t = e ++ rest ∧ e ≠ [] ∧ ¬ SplitsPair rest w ∧
      lineBehind (textBytes (u ++ c :: (t ++ w))) (byteLength u) c.toUInt8 = byteLength (u ++ e) ∧
      ∀ base, lineBreaks base (c :: t) =
        (base + byteLength e) :: lineBreaks (base + byteLength e) rest := by
  have hsize := utf8Size_of_isAscii (isAscii_of_isTerminator hc)
  by_cases hpair : SplitsPair [c] (t ++ w)
  · cases t with
    | nil => exact absurd hpair h
    | cons d t =>
      obtain rfl : c = '\r' := by simpa using hpair.1
      obtain rfl : d = '\n' := by simpa using hpair.2
      refine ⟨['\r', '\n'], t, rfl, by simp, fun hs => h (hs.append_left ['\r', '\n']), ?_, ?_⟩
      · rw [lineBehind_textBytes hc, if_pos hpair]
        simp only [byteLength_append, byteLength_cons, byteLength_nil]
        rfl
      · exact fun base => lineBreaks_pair base t
  · have hpair' : ¬ SplitsPair [c] t := by
      intro hs
      refine hpair ⟨hs.1, ?_⟩
      rw [List.head?_append, hs.2]
      rfl
    refine ⟨[c], t, rfl, by simp, fun hs => h (hs.append_left [c]), ?_, ?_⟩
    · rw [lineBehind_textBytes hc, if_neg hpair]
    · intro base
      rw [lineBreaks_terminator hc hpair', byteLength_cons, byteLength_nil, hsize]

/-- The part of a text before its first line terminator. -/
def firstLine (t : List Char) : List Char := t.takeWhile fun c => !decide (IsTerminator c)

theorem not_isTerminator_of_mem_firstLine {t : List Char} : ∀ c ∈ firstLine t, ¬ IsTerminator c := by
  intro c hc
  simpa using List.mem_takeWhile_imp hc

theorem exists_firstLine_append {t : List Char}
    (h : t.dropWhile (fun c => !decide (IsTerminator c)) ≠ []) :
    ∃ c rest, t = firstLine t ++ c :: rest ∧ IsTerminator c := by
  obtain ⟨c, rest, hrest⟩ := List.exists_cons_of_ne_nil h
  refine ⟨c, rest, ?_, ?_⟩
  · rw [← hrest, firstLine, List.takeWhile_append_dropWhile]
  · have := List.head?_dropWhile_not (fun c => !decide (IsTerminator c)) t
    simpa [hrest] using this

/-- The first line that begins in a text `v`, behind `a`. -/
theorem exists_line {v w : List Char} (h : ¬ SplitsPair v w)
    (hv : v.dropWhile (fun c => !decide (IsTerminator c)) ≠ []) (u : List Char) :
    ∃ (c : Char) (a rest : List Char), v = a ++ rest ∧ a ≠ [] ∧ ¬ SplitsPair rest w ∧
      (textBytes (u ++ v ++ w))[byteLength u + byteLength (firstLine v)]? = some c.toUInt8 ∧
      lineBehind (textBytes (u ++ v ++ w)) (byteLength u + byteLength (firstLine v)) c.toUInt8 =
        byteLength (u ++ a) ∧
      lineBreaks (byteLength u) v = byteLength (u ++ a) :: lineBreaks (byteLength (u ++ a)) rest := by
  obtain ⟨c, t, hsplit, hc⟩ := exists_firstLine_append hv
  have hbefore := not_isTerminator_of_mem_firstLine (t := v)
  generalize firstLine v = b at hsplit hbefore ⊢
  subst hsplit
  have hend : ¬ SplitsPair (c :: t) w := fun hs => h (hs.append_left b)
  obtain ⟨e, rest, hrest, he, hpair, hbehind, hbreaks⟩ := exists_lineEnd hc hend (u ++ b)
  have hassoc : u ++ (b ++ c :: t) ++ w = u ++ b ++ c :: (t ++ w) := by simp
  refine ⟨c, b ++ e, rest, by rw [hrest, List.append_assoc], by simp [he], hpair, ?_, ?_, ?_⟩
  · have := getElem?_textBytes (u ++ b) (c :: (t ++ w)) 0
    rw [textBytes_cons, utf8EncodeChar_of_isAscii (isAscii_of_isTerminator hc)] at this
    rw [hassoc, ← byteLength_append]
    exact this
  · rw [hassoc, ← byteLength_append, hbehind, List.append_assoc]
  · have hb : ¬ SplitsPair b (c :: t) := fun hs => hbefore _ (List.mem_of_getLast? hs.1) (.inr rfl)
    rw [lineBreaks_append hb, lineBreaks_of_forall hbefore, List.nil_append, hbreaks,
      byteLength_append, byteLength_append, Nat.add_assoc]

/-- **A jump over lines** records the line breaks of the text that it passes. -/
theorem exists_passLines {v w : List Char} (h : ¬ SplitsPair v w) (u : List Char) (starts : Array Nat) :
    ∃ p, passLines (textBytes (u ++ v ++ w)) (byteLength (u ++ v)) (byteLength u) starts =
      .ok (p, starts ++ lineBreaks (byteLength u) v) := by
  induction hn : v.length using Nat.strong_induction_on generalizing u v starts with
  | _ n ih =>
    subst hn
    have hfind : (textBytes v).findIdx? endsLine =
        if v.dropWhile (fun c => !decide (IsTerminator c)) = [] then none
        else some (byteLength (firstLine v)) := findIdx?_textBytes testsFor_endsLine v
    rw [passLines]
    split
    next hpart => cases hpart.symm.trans (bytesBetween?_textBytes u v w)
    next part hpart =>
      obtain rfl := Option.some.inj (hpart.symm.trans (bytesBetween?_textBytes u v w))
      split
      next hnone =>
        have hall : ∀ c ∈ v, ¬ IsTerminator c := by
          rw [hnone] at hfind
          split at hfind
          next hnil => simpa [List.dropWhile_eq_nil_iff] using hnil
          next => cases hfind
        exact ⟨byteLength u, by rw [lineBreaks_of_forall hall, Array.appendList_nil]⟩
      next found hfound =>
        rw [hfound] at hfind
        split at hfind
        next => cases hfind
        next hne =>
          obtain rfl := Option.some.inj hfind
          obtain ⟨c, a, rest, hv, ha, hrest, hget, hbehind, hbreaks⟩ := exists_line h hne u
          have hshort : rest.length < v.length := by
            have := List.length_pos_iff.mpr ha
            rw [hv, List.length_append]
            omega
          obtain ⟨p, hp⟩ := ih _ hshort hrest (u ++ a) (starts.push (byteLength (u ++ a))) rfl
          refine ⟨p, ?_⟩
          split
          next hnone => cases hnone.symm.trans hget
          next b hb =>
            obtain rfl := Option.some.inj (hb.symm.trans hget)
            have hstarts : starts.push (byteLength (u ++ a)) ++ lineBreaks (byteLength (u ++ a)) rest =
                starts ++ lineBreaks (byteLength u) v := by
              apply Array.ext'
              rw [hbreaks]
              simp
            dsimp only
            rw [hbehind, ← hstarts, ← hp, hv, List.append_assoc u a rest]

end XmlLocate
