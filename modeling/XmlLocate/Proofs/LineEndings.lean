import XmlLocate.Proofs.Grammar

/-!
# Texts with other line endings

A text whose lines end in line feeds may as well be written with carriage returns, or with both.

**Theorem (`Token.lex_write`).** The tokens of the one text are those of the other with other line
endings.

Line terminators are no part of any delimiter. So a search passes over a terminator (`PassesBreaks`), be
it one character or two, and finds its delimiter at the same place behind it. This is shown for each of
the three searches by induction on the text.
-/

namespace XmlLocate

/-! ## Texts with other line endings -/

/-- What may stand for a line feed. -/
inductive LineEnding where
  | carriageReturn | pair
  deriving DecidableEq, Repr

namespace LineEnding

def text : LineEnding → List Char
  | carriageReturn => ['\r']
  | pair => ['\r', '\n']

/-- The text with other line endings in place of its line feeds. -/
def write (e : LineEnding) (t : List Char) : List Char :=
  t.flatMap fun c => if c = '\n' then e.text else [c]

variable {e : LineEnding}

@[simp] theorem write_nil : e.write [] = [] := rfl

@[simp] theorem write_lineFeed (t : List Char) : e.write ('\n' :: t) = e.text ++ e.write t := by
  simp [write]

theorem write_cons {c : Char} (hc : c ≠ '\n') (t : List Char) : e.write (c :: t) = c :: e.write t := by
  simp [write, hc]

@[simp] theorem write_append (a b : List Char) : e.write (a ++ b) = e.write a ++ e.write b := by
  simp [write]

end LineEnding

/-! ## Delimiters -/

/-- No line terminator is in the text. -/
def IsPlain (m : List Char) : Prop := '\n' ∉ m ∧ '\r' ∉ m

instance (m : List Char) : Decidable (IsPlain m) := inferInstanceAs (Decidable (_ ∧ _))

theorem isPlain_mark (o : Opening) : IsPlain o.mark := by cases o <;> decide

theorem isPlain_close (o : Opening) : IsPlain o.close := by cases o <;> decide

theorem isPlain_quote {q : Char} (hq : isQuote q) : IsPlain [q] := by
  have hq : q = '\'' ∨ q = '"' := by simpa [isQuote] using hq
  rcases hq with rfl | rfl <;> decide

theorem IsPlain.head {c : Char} {m : List Char} (h : IsPlain (c :: m)) : c ≠ '\n' ∧ c ≠ '\r' := by
  constructor
  · rintro rfl
    exact h.1 (List.mem_cons_self ..)
  · rintro rfl
    exact h.2 (List.mem_cons_self ..)

theorem IsPlain.of_cons {c : Char} {m : List Char} (h : IsPlain (c :: m)) : IsPlain m :=
  ⟨fun hc => h.1 (List.mem_cons_of_mem _ hc), fun hc => h.2 (List.mem_cons_of_mem _ hc)⟩

namespace LineEnding

variable {e : LineEnding}

theorem write_of_isPlain {m : List Char} (hm : IsPlain m) : e.write m = m := by
  induction m with
  | nil => rfl
  | cons c m ih => rw [write_cons hm.head.1, ih hm.of_cons]

/-- A delimiter begins the text if it did before. -/
theorem isPrefixOf_write {m : List Char} (hm : IsPlain m) (t : List Char) :
    m.isPrefixOf (e.write t) = m.isPrefixOf t := by
  induction m generalizing t with
  | nil => rfl
  | cons d m ih =>
    obtain ⟨hlf, hcr⟩ := hm.head
    cases t with
    | nil => rfl
    | cons c t =>
      by_cases hc : c = '\n'
      · subst hc
        rw [write_lineFeed]
        cases e <;> simp [text, List.isPrefixOf, beq_eq_false_iff_ne.mpr hlf, beq_eq_false_iff_ne.mpr hcr]
      · rw [write_cons hc, List.isPrefixOf, List.isPrefixOf, ih hm.of_cons]

theorem prefix_write {m t : List Char} (hm : IsPlain m) : m <+: e.write t ↔ m <+: t := by
  rw [← List.isPrefixOf_iff_prefix, ← List.isPrefixOf_iff_prefix, isPrefixOf_write hm]

theorem write_eq_nil_iff {t : List Char} : e.write t = [] ↔ t = [] := by
  cases t with
  | nil => simp
  | cons c t =>
    by_cases hc : c = '\n'
    · subst hc
      cases e <;> simp [text]
    · simp [write_cons hc]

end LineEnding

/-! ## Searches -/

/-- A search does not stop at a line terminator. -/
def PassesBreaks (f : List Char → Option (List Char × List Char)) : Prop :=
  ∀ c t, c = '\n' ∨ c = '\r' → f (c :: t) = (f t).map fun (a, b) => (c :: a, b)

theorem PassesBreaks.text_append {f : List Char → Option (List Char × List Char)}
    (hf : PassesBreaks f) (e : LineEnding) (t : List Char) :
    f (e.text ++ t) = (f t).map fun (a, b) => (e.text ++ a, b) := by
  cases e with
  | carriageReturn => exact hf _ _ (.inr rfl)
  | pair =>
    show f ('\r' :: '\n' :: t) = _
    rw [hf _ _ (.inr rfl), hf _ _ (.inl rfl), Option.map_map]
    rfl

/-- The two parts of a text with other line endings. -/
def LineEnding.writeBoth (e : LineEnding) (p : List Char × List Char) : List Char × List Char :=
  (e.write p.1, e.write p.2)

theorem PassesBreaks.write_lineFeed {f : List Char → Option (List Char × List Char)}
    (hf : PassesBreaks f) {e : LineEnding} {t : List Char}
    (h : f (e.write t) = (f t).map e.writeBoth) :
    f (e.write ('\n' :: t)) = (f ('\n' :: t)).map e.writeBoth := by
  rw [LineEnding.write_lineFeed, hf.text_append, hf _ _ (.inl rfl), h, Option.map_map,
    Option.map_map]
  simp [Function.comp_def, LineEnding.writeBoth]

theorem LineEnding.map_writeBoth_cons {e : LineEnding} {c : Char} (hc : c ≠ '\n')
    (p : Option (List Char × List Char)) :
    (p.map fun (a, b) => (c :: a, b)).map e.writeBoth =
      (p.map e.writeBoth).map fun (a, b) => (c :: a, b) := by
  cases p with
  | none => rfl
  | some p => simp [writeBoth, write_cons hc]

theorem passesBreaks_splitAround {mark : List Char} (hne : mark ≠ []) (hm : IsPlain mark) :
    PassesBreaks (splitAround mark) := by
  intro c t hc
  rw [splitAround, if_neg]
  intro hp
  obtain ⟨d, m, rfl⟩ := List.exists_cons_of_ne_nil hne
  obtain rfl := (List.cons_prefix_cons.mp (List.isPrefixOf_iff_prefix.mp hp)).1
  obtain ⟨hlf, hcr⟩ := hm.head
  rcases hc with hc | hc
  · exact hlf hc
  · exact hcr hc

theorem splitAround_write {mark : List Char} (hne : mark ≠ []) (hm : IsPlain mark) (e : LineEnding)
    (t : List Char) : splitAround mark (e.write t) = (splitAround mark t).map e.writeBoth := by
  induction t with
  | nil => rfl
  | cons c t ih =>
    by_cases hc : c = '\n'
    · subst hc
      exact (passesBreaks_splitAround hne hm).write_lineFeed ih
    · have hprefix := LineEnding.isPrefixOf_write (e := e) hm (c :: t)
      rw [LineEnding.write_cons hc] at hprefix ⊢
      rw [splitAround, splitAround, hprefix]
      by_cases hp : mark.isPrefixOf (c :: t)
      · obtain ⟨r, hr⟩ := List.isPrefixOf_iff_prefix.mp hp
        rw [if_pos hp, if_pos hp, ← LineEnding.write_cons hc, ← hr, LineEnding.write_append,
          LineEnding.write_of_isPlain hm, List.drop_left, List.drop_left]
        rfl
      · rw [if_neg hp, if_neg hp, ih, LineEnding.map_writeBoth_cons hc]

theorem passesBreaks_splitTag {quote : Option Char} (hq : ∀ q ∈ quote, isQuote q) :
    PassesBreaks (splitTag quote) := by
  intro c t hc
  have hquote : isQuote c = false := by rcases hc with rfl | rfl <;> rfl
  have hend : ¬ (quote = none ∧ c = '>') := by rcases hc with rfl | rfl <;> simp
  have hstep : quoteStep quote c = quote := by
    cases quote with
    | none => rw [quoteStep, if_neg (by simp [hquote])]
    | some q =>
      refine if_neg ?_
      rintro rfl
      rw [hq c rfl] at hquote
      exact absurd hquote (by simp)
  rw [splitTag_cons hend, hstep]

theorem isQuote_of_quoteStep {quote : Option Char} (hq : ∀ q ∈ quote, isQuote q) (c : Char) :
    ∀ q ∈ quoteStep quote c, isQuote q := by
  intro q hmem
  cases quote with
  | none =>
    rw [quoteStep] at hmem
    split_ifs at hmem with hc
    · obtain rfl := Option.some.inj hmem
      exact hc
    · exact absurd hmem (by simp)
  | some q' =>
    rw [quoteStep] at hmem
    split_ifs at hmem with hc
    · exact absurd hmem (by simp)
    · exact hq q hmem

theorem splitTag_write {quote : Option Char} (hq : ∀ q ∈ quote, isQuote q) (e : LineEnding)
    (t : List Char) : splitTag quote (e.write t) = (splitTag quote t).map e.writeBoth := by
  induction t generalizing quote with
  | nil => cases quote <;> rfl
  | cons c t ih =>
    by_cases hc : c = '\n'
    · subst hc
      exact (passesBreaks_splitTag hq).write_lineFeed (ih hq)
    · rw [LineEnding.write_cons hc]
      by_cases hend : quote = none ∧ c = '>'
      · obtain ⟨rfl, rfl⟩ := hend
        rfl
      · rw [splitTag_cons hend, splitTag_cons hend, ih (isQuote_of_quoteStep hq c),
          LineEnding.map_writeBoth_cons hc]

/-! ## Declarations -/

theorem splitDeclaration_cons_enclosure {d n : Nat} {c : Char} {t mark : List Char}
    (he : enclosure? d c t = some (n, mark)) :
    splitDeclaration d (c :: t) = (splitAround mark (t.drop n)).bind fun (a, b) =>
      (splitDeclaration d b).map fun (a', r) => (c :: t.take n ++ a ++ mark ++ a', r) := by
  rw [splitDeclaration]
  split
  · rename_i n' mark' he'
    obtain ⟨rfl, rfl⟩ := Prod.mk.inj (Option.some.inj (he.symm.trans he'))
    split
    · rename_i hs
      simp [hs]
    · rename_i hs
      simp [hs]
  · rename_i he'
    exact absurd (he.symm.trans he') (by simp)

theorem splitDeclaration_cons {d : Nat} {c : Char} {t : List Char} (he : enclosure? d c t = none) :
    splitDeclaration d (c :: t) = if c = '>' ∧ d = 0 then some ([], t)
      else (splitDeclaration (depthAfter d c) t).map fun (a, b) => (c :: a, b) := by
  rw [splitDeclaration, he]

theorem passesBreaks_splitDeclaration (d : Nat) : PassesBreaks (splitDeclaration d) := by
  intro c t hc
  have he : enclosure? d c t = none := by rcases hc with rfl | rfl <;> simp [enclosure?, isQuote]
  have hend : ¬ (c = '>' ∧ d = 0) := by rcases hc with rfl | rfl <;> simp
  have hdepth : depthAfter d c = d := by rcases hc with rfl | rfl <;> rfl
  rw [splitDeclaration_cons he, if_neg hend, hdepth]

/-- The delimiters of an enclosure hold no line terminator. -/
theorem isPlain_of_enclosure? {d n : Nat} {c : Char} {t mark : List Char}
    (he : enclosure? d c t = some (n, mark)) :
    mark ≠ [] ∧ IsPlain mark ∧ ∃ m r, t = m ++ r ∧ m.length = n ∧ IsPlain (c :: m) := by
  rcases enclosure?_cases d c t with ⟨hq, h⟩ | ⟨o, ho, -, hp, h⟩ | ⟨-, -, h⟩
  · obtain ⟨rfl, rfl⟩ := Prod.mk.inj (Option.some.inj (he.symm.trans h))
    exact ⟨by simp, isPlain_quote hq, [], t, rfl, rfl, isPlain_quote hq⟩
  · obtain ⟨rfl, rfl⟩ := Prod.mk.inj (Option.some.inj (he.symm.trans h))
    obtain ⟨d, m, hm⟩ := List.exists_cons_of_length_pos o.length_mark_pos
    have hplain := isPlain_mark o
    rw [hm] at hp hplain ⊢
    obtain ⟨rfl, r, rfl⟩ := List.cons_prefix_cons.mp hp
    exact ⟨List.length_pos_iff.mp o.length_close_pos, isPlain_close o, m, r, rfl, rfl, hplain⟩
  · exact absurd (he.symm.trans h) (by simp)

theorem enclosure?_write (d : Nat) (c : Char) (e : LineEnding) (t : List Char) :
    enclosure? d c (e.write t) = enclosure? d c t := by
  rw [enclosure?, enclosure?, LineEnding.isPrefixOf_write (by decide),
    LineEnding.isPrefixOf_write (by decide)]

theorem splitDeclaration_write (d : Nat) (e : LineEnding) (t : List Char) :
    splitDeclaration d (e.write t) = (splitDeclaration d t).map e.writeBoth := by
  induction h : t.length using Nat.strong_induction_on generalizing d t with
  | _ n ih =>
  subst h
  cases t with
  | nil => simp [splitDeclaration]
  | cons c t =>
    have ih' := fun d (u : List Char) (hu : u.length < t.length + 1) => ih u.length hu d u rfl
    by_cases hc : c = '\n'
    · subst hc
      exact (passesBreaks_splitDeclaration d).write_lineFeed (ih' d t (Nat.lt_succ_self _))
    · have hwrite := enclosure?_write d c e t
      rw [LineEnding.write_cons hc]
      cases he : enclosure? d c t with
      | none =>
        rw [he] at hwrite
        rw [splitDeclaration_cons hwrite, splitDeclaration_cons he]
        split_ifs with hend
        · rfl
        · rw [ih' _ t (Nat.lt_succ_self _), LineEnding.map_writeBoth_cons hc]
      | some p =>
        obtain ⟨n, mark⟩ := p
        rw [he] at hwrite
        rw [splitDeclaration_cons_enclosure hwrite, splitDeclaration_cons_enclosure he]
        obtain ⟨hne, hmark, m, r, rfl, rfl, hm⟩ := isPlain_of_enclosure? he
        rw [LineEnding.write_append, LineEnding.write_of_isPlain hm.of_cons, List.drop_left,
          List.drop_left, List.take_left, List.take_left, splitAround_write hne hmark]
        cases hs : splitAround mark r with
        | none => rfl
        | some p =>
          obtain ⟨a, b⟩ := p
          have hlt : b.length < (m ++ r).length + 1 := by
            have := length_splitAround hs
            rw [List.length_append]
            omega
          simp only [Option.map_some, Option.bind_some, LineEnding.writeBoth, ih' d b hlt,
            Option.map_map]
          congr 1
          funext p
          simp [LineEnding.writeBoth, LineEnding.write_cons hc, LineEnding.write_of_isPlain hm.of_cons,
            LineEnding.write_of_isPlain hmark]

/-! ## Tokens -/

theorem Opening.ofText_write (e : LineEnding) (t : List Char) : ofText (e.write t) = ofText t := by
  unfold ofText
  simp only [LineEnding.isPrefixOf_write (isPlain_mark _)]

theorem Opening.split_write (o : Opening) (e : LineEnding) (t : List Char) :
    o.split (e.write t) = (o.split t).map e.writeBoth := by
  have hne := List.length_pos_iff.mp o.length_close_pos
  cases o with
  | declaration => exact splitDeclaration_write 0 e t
  | startTag => exact splitTag_write (by simp) e t
  | closeTag | instruction | comment | cdata => exact splitAround_write hne (isPlain_close _) e t

theorem LineEnding.getLast?_write (e : LineEnding) (t : List Char) :
    (e.write t).getLast? = some '/' ↔ t.getLast? = some '/' := by
  induction t using List.reverseRecOn with
  | nil => rfl
  | append_singleton t c _ =>
    rw [write_append]
    by_cases hc : c = '\n'
    · subst hc
      cases e <;> simp [text]
    · rw [write_cons hc]
      simp

theorem Opening.form_write (o : Opening) (e : LineEnding) (body : List Char) :
    o.form (e.write body) = o.form body := by
  cases o <;> simp only [form, e.getLast?_write]

namespace Token

/-- The token with other line endings. -/
def write (e : LineEnding) (k : Token) : Token := { k with text := e.write k.text }

theorem markup_write {t : List Char} (e : LineEnding) (hlt : t.head? = some '<') :
    markup (e.write t) = ((markup t).1.write e, e.write (markup t).2) := by
  obtain ⟨t, rfl⟩ := List.head?_eq_some_iff.mp hlt
  unfold markup
  obtain ⟨r, hr⟩ := Opening.mark_prefix_ofText t
  rw [Opening.ofText_write]
  have hmark := isPlain_mark (.ofText ('<' :: t))
  generalize Opening.ofText ('<' :: t) = o at hr hmark
  rw [← hr, LineEnding.write_append, LineEnding.write_of_isPlain hmark]
  simp only [List.drop_left, Opening.split_write]
  cases o.split r with
  | none => simp [write, LineEnding.write_of_isPlain hmark]
  | some p =>
    simp [write, LineEnding.writeBoth, LineEnding.write_of_isPlain hmark,
      LineEnding.write_of_isPlain (isPlain_close o), Opening.form_write]

theorem span_write (e : LineEnding) (t : List Char) :
    (e.write t).takeWhile (· != '<') = e.write (t.takeWhile (· != '<')) ∧
      (e.write t).dropWhile (· != '<') = e.write (t.dropWhile (· != '<')) := by
  induction t with
  | nil => exact ⟨rfl, rfl⟩
  | cons c t ih =>
    by_cases hc : c = '\n'
    · subst hc
      cases e <;> simp [LineEnding.text, ih]
    · by_cases hlt : c = '<'
      · subst hlt
        simp [LineEnding.write_cons hc]
      · simp [LineEnding.write_cons hc, hlt, ih]

theorem run_write (e : LineEnding) (t : List Char) :
    run (e.write t) = ((run t).1.write e, e.write (run t).2) := by
  obtain ⟨htake, hdrop⟩ := span_write e t
  have hempty : (e.write (t.dropWhile (· != '<'))).isEmpty = (t.dropWhile (· != '<')).isEmpty := by
    rw [Bool.eq_iff_iff, List.isEmpty_iff, List.isEmpty_iff, LineEnding.write_eq_nil_iff]
  simp only [run, htake, hdrop, hempty]
  rfl

theorem next_write (e : LineEnding) (t : List Char) :
    next (e.write t) = ((next t).1.write e, e.write (next t).2) := by
  have hlt : (e.write t).head? = some '<' ↔ t.head? = some '<' := by
    have key : ∀ u : List Char, u.head? = some '<' ↔ ['<'] <+: u := by
      intro u
      cases u <;> simp [List.cons_prefix_cons, eq_comm]
    rw [key, key, LineEnding.prefix_write (by decide)]
  unfold next
  by_cases h : t.head? = some '<'
  · rw [if_pos h, if_pos (hlt.mpr h), markup_write e h]
  · rw [if_neg h, if_neg (mt hlt.mp h), run_write]

/-- **The tokens are the same** with other line endings. -/
theorem lex_write (e : LineEnding) (t : List Char) : lex (e.write t) = (lex t).map (write e) := by
  fun_induction lex t with
  | case1 => rw [LineEnding.write_nil, lex, dif_pos rfl]; rfl
  | case2 t h _ ih =>
    rw [lex, dif_neg (mt LineEnding.write_eq_nil_iff.mp h)]
    show (next (e.write t)).1 :: lex (next (e.write t)).2 = _
    rw [next_write, ih, List.map_cons]

end Token

end XmlLocate
