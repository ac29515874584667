import XmlLocate.Proofs.Growing
import XmlLocate.Proofs.Lockstep
import XmlLocate.Proofs.Slices

/-!
# Elements and their own tags

An element of a document should be located at the tag that a reader read it from. A reader and a scan
go through the text each by itself, and the k-th element is put where the k-th element span is, so
that is right only as long as the two meet the same tags.

**Theorem (`located_iff_inStep`).** Every element is located at a text with its name exactly if the
tags that the scan finds first have the names that the reader found, in order. Every element is
located at its own tag exactly if they stand in the same places, and they do if the two readings agree
on where the end tags and the document types of the text end.

They need not agree (`not_namesLocated_quoted_doctype`): a quoted `>` ends a document type to a reader
and not to a scan.
-/

namespace XmlLocate

/-! ## Tokens in their text -/

theorem Token.Tokenises.exists_of_mem_placed {t : List Char} {ks : List Token}
    (h : Token.Tokenises t ks) {offset : Nat} {p : Nat × Token} (hp : p ∈ placed offset ks) :
    ∃ a b, t = a ++ p.2.text ++ b ∧ p.1 = offset + byteLength a ∧
      Token.Heads (p.2.text ++ b) p.2 b := by
  induction h generalizing offset with
  | nil => simp at hp
  | @cons t rest k ks hk _ ih =>
    rw [placed_cons, List.mem_cons] at hp
    rcases hp with rfl | hp
    · refine ⟨[], rest, ?_, by simp, ?_⟩
      · simpa using hk.text_append.symm
      · rwa [hk.text_append]
    · obtain ⟨a, b, rfl, hoffset, hheads⟩ := ih hp
      refine ⟨k.text ++ a, b, ?_, ?_, hheads⟩
      · rw [← hk.text_append]
        simp
      · rw [hoffset, byteLength_append, Nat.add_assoc]
        rfl

theorem mem_of_mem_placed {offset : Nat} {ks : List Token} {p : Nat × Token}
    (hp : p ∈ placed offset ks) : p.2 ∈ ks := by
  induction ks generalizing offset with
  | nil => simp at hp
  | cons k ks ih =>
    rcases List.mem_cons.mp hp with rfl | hp
    · exact List.mem_cons_self ..
    · exact List.mem_cons_of_mem _ (ih hp)

/-- Texts that begin with the same number of bytes of one text are the same. -/
theorem append_inj_of_byteLength {a a' b b' : List Char} (h : a ++ b = a' ++ b')
    (hlen : byteLength a = byteLength a') : a = a' ∧ b = b' := by
  have hnil : ∀ c : List Char, byteLength c = 0 → c = [] := by
    intro c hc
    by_contra hne
    have := byteLength_pos hne
    omega
  rcases List.append_eq_append_iff.mp h with ⟨c, rfl, rfl⟩ | ⟨c, rfl, rfl⟩
  · obtain rfl := hnil c (by simpa using hlen)
    simp
  · obtain rfl := hnil c (by simpa using hlen)
    simp

theorem Token.Heads.delimiters {t rest : List Char} {k : Token} (h : Heads t k rest)
    (hc : k.complete) (hf : k.form ≠ .text) : ['<'] <+: k.text ∧ ['>'] <:+ k.text := by
  cases h with
  | run => exact absurd rfl hf
  | @markup o t a b =>
    constructor
    · cases o <;> simp [Opening.mark]
    · have hclose : ['>'] <:+ o.close := by cases o <;> decide
      exact hclose.trans (List.suffix_append _ _)
  | unfinished => simp at hc

theorem Token.Tokenises.exists_of_mem {t : List Char} {ks : List Token}
    (h : Token.Tokenises t ks) {k : Token} (hk : k ∈ ks) : ∃ u rest, Token.Heads u k rest := by
  induction h with
  | nil => simp at hk
  | cons hhead _ ih =>
    rcases List.mem_cons.mp hk with rfl | hk
    · exact ⟨_, _, hhead⟩
    · exact ih hk

theorem delimiters_of_mem_lex {source : List Char} {k : Token} (hk : k ∈ Token.lex source)
    (hc : k.complete) (hf : k.form ≠ .text) : ['<'] <+: k.text ∧ ['>'] <:+ k.text := by
  obtain ⟨u, rest, h⟩ := (Token.tokenises_iff.mpr rfl : Token.Tokenises source _).exists_of_mem hk
  exact h.delimiters hc hf

/-! ## The text of an element -/

/-- The tokens of an element end with one that has its own end. -/
theorem IsElement.exists_tokens {ks : List Token} {s : Span} (h : IsElement 0 ks s) :
    ∃ before inner k behind, ks = before ++ (inner ++ [k]) ++ behind ∧ k.complete ∧
      k.form ≠ .text ∧ s.start = lengthOf before ∧
      s.stop = some (lengthOf before + lengthOf (inner ++ [k])) := by
  cases h with
  | pair pre o inner c post hks ho hc hi hstart hhead hstop =>
    have hform := Token.form_of_isClose hc
    refine ⟨pre, o :: inner, c, post, by simp [hks], by simp_all [Token.isClose], by simp [hform],
      by omega, ?_⟩
    rw [hstop, hstart]
    simp [Nat.add_assoc]
  | empty pre k post hks hf hc hstart hhead hstop =>
    refine ⟨pre, [], k, post, by simp [hks], hc, by simp [hf], by omega, ?_⟩
    rw [hstop, hstart]
    simp

/-- The text of an element ends with a `>`. -/
theorem text?_of_isElement {source : List Char} {s : Span} (lines : LineTable)
    (h : IsElement 0 (Token.lex source) s) :
    ∃ t, (Location.mk s lines source).text? = some t ∧ ['>'] <:+ t := by
  obtain ⟨before, inner, k, behind, hks, hc, hf, hstart, hstop⟩ := h.exists_tokens
  have hmem : k ∈ Token.lex source := by simp [hks]
  refine ⟨(inner ++ [k]).flatMap Token.text, ?_, ?_⟩
  · rw [Location.text?, Location.startOffset, Location.stopOffset, Span.stopIn, hstop, hstart]
    exact slice?_of_tokens hks
  · rw [List.flatMap_append, List.flatMap_singleton]
    exact (delimiters_of_mem_lex hmem hc hf).2.trans (List.suffix_append _ _)

/-- The span `s` is that of the element which the token `q` begins. -/
structure AtToken (source : List Char) (lines : LineTable) (q : Nat × Token) (s : Span) : Prop where
  start : s.start = q.1
  head : (Location.mk s lines source).head? = some q.2.text
  text : ∃ t, (Location.mk s lines source).text? = some t ∧ ['>'] <:+ t

theorem tagTokens_eq_filter_owners (offset : Nat) (ks : List Token) :
    tagTokens offset ks = (owners offset ks).filter fun p => p.2.kind? == some .element := by
  rw [tagTokens, owners, List.filter_filter]
  congr 1
  funext p
  cases p.2.kind? <;> simp

/-- The element spans of a scan are those of the tokens that begin an element, in order. -/
theorem forall₂_elementSpans {source : List Char} {s : Scan} (h : scan source = .ok s) :
    List.Forall₂ (AtToken source s.lines) (tagTokens 0 (Token.lex source)) s.elementSpans := by
  obtain ⟨hb, rfl⟩ := scan_eq_ok_iff.mp h
  have htokens : Token.Tokenises source (Token.lex source) := Token.tokenises_iff.mpr rfl
  have hdescribes : List.Forall₂ (Describes (placed 0 (Token.lex source)))
      (tagTokens 0 (Token.lex source))
      ((spansOf 0 0 (Token.lex source)).filter (·.kind == .element)) := by
    rw [tagTokens_eq_filter_owners]
    refine List.rel_filter ?_ (describes_spansOf hb 0 0 fun _ hq => hq)
    intro p s hps
    simp [hps.kind]
  obtain ⟨hlen, hdescribes⟩ := List.forall₂_iff_zip.mp hdescribes
  refine List.forall₂_iff_zip.mpr ⟨hlen, ?_⟩
  intro q s hqs
  obtain ⟨hq, hs⟩ := List.of_mem_zip hqs
  have hd := hdescribes hqs
  obtain ⟨hs, hkind⟩ := List.mem_filter.mp hs
  rw [beq_iff_eq] at hkind
  obtain ⟨a, b, htext, hoffset, -⟩ := htokens.exists_of_mem_placed (List.mem_of_mem_filter hq)
  refine ⟨hd.start, ?_, text?_of_isElement _ (isElement_of_mem_spansOf hb hs hkind)⟩
  rw [Location.head?, Location.startOffset, Span.headEndIn, hd.headEnd, if_pos hkind, hd.start,
    Option.getD_some, hoffset, Nat.zero_add, htext]
  have := slice?_append a q.2.text b
  rwa [byteLength_append] at this

/-! ## Documents -/

theorem ok_of_mapError {ε ε' α : Type} {f : ε → ε'} {x : Except ε α} {a : α}
    (h : x.mapError f = .ok a) : x = .ok a := by
  cases x with
  | error e => exact absurd h (by simp [Except.mapError])
  | ok b => rw [Except.ok.inj (h : Except.ok b = .ok a)]

theorem reads_of_readEvents {trimmed : Bool} {source : List Char}
    (h : (readEvents trimmed source).failure = none) :
    ∃ ms, Reads 0 source ms ∧ (readEvents trimmed source).events.filterMap Event.tagName? =
      ms.filterMap fun p => p.2.tagName? := by
  unfold readEvents at h ⊢
  split_ifs at h ⊢ with hbom
  · obtain ⟨t, rfl⟩ : ∃ t, source = '\ufeff' :: t := by
      cases source with
      | nil => simp at hbom
      | cons c t => exact ⟨t, by rw [Option.some.inj hbom]⟩
    obtain ⟨ms, hms, hnames⟩ := reads_of_readFrom h (0 + '\ufeff'.utf8Size)
    exact ⟨ms, hms.cons_text (by decide), hnames⟩
  · exact reads_of_readFrom h 0

theorem elements_of_parseTree {trimmed : Bool} {source : List Char} {root : Node}
    (h : Document.parseTree trimmed source = .ok root) :
    root.isElement ∧ ((Node.elementsAll [root]).map Node.id).Nodup ∧
      ∃ ms, Reads 0 source ms ∧
        (Node.elementsAll [root]).map Node.name? = (ms.filterMap fun p => p.2.tagName?).map some := by
  unfold Document.parseTree at h
  obtain ⟨g, hg, h⟩ := bind_eq_ok h
  cases hfailure : (readEvents trimmed source).failure with
  | some e => simp [hfailure] at h
  | none =>
    simp only [hfailure] at h
    obtain ⟨hroot, hids, hnames⟩ := elements_of_growth (ok_of_mapError hg) (ok_of_mapError h)
    obtain ⟨ms, hms, htags⟩ := reads_of_readEvents hfailure
    exact ⟨hroot, hids, ms, hms, by rw [hnames, htags]⟩

/-- The elements of a document, and where they are. -/
theorem elements_of_parse {options : ParseOptions} {source : List Char} {doc : Document}
    (hkeep : options.keepPositions) (h : Document.parse options source = .ok doc) :
    ∃ s ms, scan source = .ok s ∧ Reads 0 source ms ∧
      (doc.root.descendants.filter Node.isElement).map Node.name? =
        (ms.filter fun p => p.2.isTag).map (fun p => p.2.tagName?) ∧
      ∀ (k : Nat) n, (doc.root.descendants.filter Node.isElement)[k]? = some n →
        doc.location? n = s.elementSpans[k]?.map (⟨·, s.lines, source⟩) := by
  obtain ⟨root, hroot, h⟩ := bind_eq_ok h
  rw [if_pos hkeep] at h
  obtain ⟨located, hlocated, h⟩ := bind_eq_ok h
  obtain rfl := Except.ok.inj h
  have hlocated := ok_of_mapError hlocated
  obtain ⟨s, hs, -⟩ := bind_eq_ok hlocated
  obtain ⟨helement, hids, ms, hms, hnames⟩ := elements_of_parseTree hroot
  refine ⟨s, ms, hs, hms, ?_, ?_⟩
  · rw [Node.filter_descendants, hnames]
    clear hms hnames
    induction ms with
    | nil => rfl
    | cons p ms ih =>
      obtain ⟨offset, m⟩ := p
      cases m <;> simpa [Markup.isTag, Markup.tagName?] using ih
  · intro k n hn
    rw [Node.filter_descendants] at hn
    exact LocatedText.location?_eq helement hids hs hlocated hn

/-! ## In step -/

theorem exists_forall₂_prefix_iff {α β : Type} {R : α → β → Prop} {xs : List α} {ys : List β} :
    (∃ kept, kept <+: ys ∧ List.Forall₂ R xs kept) ↔
      ∀ (k : Nat) x, xs[k]? = some x → ∃ y, ys[k]? = some y ∧ R x y := by
  induction xs generalizing ys with
  | nil => simp
  | cons x xs ih =>
    constructor
    · rintro ⟨kept, hkept, hR⟩ k x' hx'
      cases hR with
      | cons hxy hR =>
        obtain ⟨zs, rfl⟩ := hkept
        cases k with
        | zero =>
          obtain rfl : x = x' := by simpa using hx'
          exact ⟨_, rfl, hxy⟩
        | succ k => exact ih.mp ⟨_, List.prefix_append _ _, hR⟩ k x' hx'
    · intro h
      obtain ⟨y, hy, hxy⟩ := h 0 x rfl
      cases ys with
      | nil => simp at hy
      | cons y' ys =>
        obtain rfl : y' = y := by simpa using hy
        obtain ⟨kept, hkept, hR⟩ := ih.mpr fun k => h (k + 1)
        exact ⟨y' :: kept, List.cons_prefix_cons.mpr ⟨rfl, hkept⟩, .cons hxy hR⟩

/-- The tags that a reader finds are related to the first that a scan finds, in order. -/
def InStep (R : Nat × Markup → Nat × Token → Prop) (ms : List (Nat × Markup))
    (source : List Char) : Prop :=
  ∃ kept, kept <+: tagTokens 0 (Token.lex source) ∧
    List.Forall₂ R (ms.filter fun p => p.2.isTag) kept

/-- The token begins with the name that is in the tag. -/
def SameName (p : Nat × Markup) (q : Nat × Token) : Prop :=
  ∃ name, p.2.tagName? = some name ∧ '<' :: name.toList <+: q.2.text

/-- The token stands where the tag does. -/
def SamePlace (p : Nat × Markup) (q : Nat × Token) : Prop := p.1 = q.1

theorem Reads.exists_of_mem {offset : Nat} {t : List Char} {ms : List (Nat × Markup)}
    (h : Reads offset t ms) {p : Nat × Markup} (hp : p ∈ ms) :
    ∃ a u rest, t = a ++ '<' :: u ∧ p.1 = offset + byteLength a ∧ Markup.split u = .ok (p.2, rest) := by
  induction h with
  | nil => simp at hp
  | @cons offset u t rest m ms hu hsplit _ ih =>
    rcases List.mem_cons.mp hp with rfl | hp
    · exact ⟨u, t, rest, rfl, rfl, hsplit⟩
    · obtain ⟨a, v, rest', hrest, hoffset, hv⟩ := ih hp
      refine ⟨u ++ m.source ++ a, v, rest', ?_, ?_, hv⟩
      · rw [← Markup.source_append_of_split hsplit, hrest]
        simp
      · rw [hoffset, byteLength_append, byteLength_append]
        omega

/-- A tag and a token that stand in one place are the same. -/
theorem token_eq_of_samePlace {source : List Char} {ms : List (Nat × Markup)}
    (h : Reads 0 source ms) {p : Nat × Markup} (hp : p ∈ ms) (hm : p.2.isTag) {q : Nat × Token}
    (hq : q ∈ placed 0 (Token.lex source)) (heq : SamePlace p q) : q.2 = p.2.token := by
  obtain ⟨a, u, rest, ha, hoffset, hsplit⟩ := h.exists_of_mem hp
  obtain ⟨a', b, ha', hoffset', hheads⟩ :=
    (Token.tokenises_iff.mpr rfl : Token.Tokenises source _).exists_of_mem_placed hq
  have hagrees : p.2.Agrees := by
    cases hpm : p.2 <;> simp_all [Markup.isTag, Markup.Agrees]
  rw [List.append_assoc, ha] at ha'
  have hlen : byteLength a = byteLength a' := by
    rw [SamePlace] at heq
    omega
  obtain ⟨-, htext⟩ := append_inj_of_byteLength ha' hlen
  have hnext := (Markup.heads_of_split hsplit hagrees).next_eq
  rw [htext, hheads.next_eq] at hnext
  exact (Prod.mk.inj hnext).1

theorem sameName_of_tag {p : Nat × Markup} {q : Nat × Token} (hm : p.2.isTag)
    (h : q.2 = p.2.token) : SameName p q := by
  obtain ⟨offset, m⟩ := p
  cases m with
  | startTag c =>
    refine ⟨_, rfl, ?_⟩
    rw [h, String.toList_ofList]
    exact List.cons_prefix_cons.mpr ⟨rfl, (List.takeWhile_prefix _).trans (List.prefix_append c ['>'])⟩
  | emptyTag c =>
    refine ⟨_, rfl, ?_⟩
    rw [h, String.toList_ofList]
    exact List.cons_prefix_cons.mpr
      ⟨rfl, (List.takeWhile_prefix _).trans (List.prefix_append c ['/', '>'])⟩
  | _ => simp [Markup.isTag] at hm

theorem InStep.sameName {source : List Char} {ms : List (Nat × Markup)} (h : Reads 0 source ms)
    (hstep : InStep SamePlace ms source) : InStep SameName ms source := by
  unfold InStep at hstep ⊢
  rw [exists_forall₂_prefix_iff] at hstep ⊢
  intro k p hp
  obtain ⟨q, hq, heq⟩ := hstep k p hp
  obtain ⟨hmem, hm⟩ := List.mem_filter.mp (List.mem_of_getElem? hp)
  have hplaced := List.mem_of_mem_filter (List.mem_of_getElem? hq)
  exact ⟨q, hq, sameName_of_tag hm (token_eq_of_samePlace h hmem hm hplaced heq)⟩

theorem inStep_of_agrees {source : List Char} {ms : List (Nat × Markup)} (h : Reads 0 source ms)
    (ha : ∀ p ∈ ms, p.2.Agrees) : InStep SamePlace ms source := by
  refine ⟨_, List.prefix_rfl, ?_⟩
  rw [tags_lex_of_reads h ha, List.forall₂_map_right_iff]
  exact List.forall₂_same.mpr fun _ _ => rfl

/-! ## Where elements are -/

/-- Each element of the document is located at text that begins with its name and ends as a tag
does. -/
def Document.NamesLocated (d : Document) : Prop :=
  ∀ n ∈ d.root.descendants, ∀ name, n.name? = some name → ∃ l, d.location? n = some l ∧
    (∃ t, l.head? = some t ∧ '<' :: name.toList <+: t ∧ ['>'] <:+ t) ∧
    ∃ t, l.text? = some t ∧ ['>'] <:+ t

/-- The elements of the document are located where a reader found their tags. -/
def Document.TagsLocated (d : Document) (ms : List (Nat × Markup)) : Prop :=
  List.Forall₂ (fun n p => ∃ l, d.location? n = some l ∧ l.startOffset = p.1)
    (d.root.descendants.filter Node.isElement) (ms.filter fun p => p.2.isTag)

/-- An element that comes k-th is located if there is a k-th token that begins an element. What can be
said of its location can be said of the token. -/
theorem exists_location_iff {source : List Char} {doc : Document} {s : Scan}
    (hs : scan source = .ok s) {n : Node} {k : Nat}
    (hn : doc.location? n = s.elementSpans[k]?.map (⟨·, s.lines, source⟩)) {P : Location → Prop}
    {Q : Nat × Token → Prop}
    (hPQ : ∀ q ∈ tagTokens 0 (Token.lex source), ∀ span, AtToken source s.lines q span →
      (P ⟨span, s.lines, source⟩ ↔ Q q)) :
    (∃ l, doc.location? n = some l ∧ P l) ↔
      ∃ q, (tagTokens 0 (Token.lex source))[k]? = some q ∧ Q q := by
  obtain ⟨hlen, hget⟩ := List.forall₂_iff_get.mp (forall₂_elementSpans hs)
  rw [hn]
  constructor
  · rintro ⟨l, hl, hP⟩
    obtain ⟨span, hspan, rfl⟩ := Option.map_eq_some_iff.mp hl
    obtain ⟨hk, rfl⟩ := List.getElem?_eq_some_iff.mp hspan
    refine ⟨_, List.getElem?_eq_getElem (hlen ▸ hk), ?_⟩
    exact (hPQ _ (List.getElem_mem _) _ (hget k (hlen ▸ hk) hk)).mp hP
  · rintro ⟨q, hq, hQ⟩
    obtain ⟨hk, rfl⟩ := List.getElem?_eq_some_iff.mp hq
    have hk' : k < s.elementSpans.length := hlen ▸ hk
    refine ⟨_, by rw [List.getElem?_eq_getElem hk']; rfl, ?_⟩
    exact (hPQ _ (List.getElem_mem _) _ (hget k hk hk')).mpr hQ

theorem delimiters_of_mem_tagTokens {source : List Char} (hb : Balanced (Token.lex source))
    {q : Nat × Token} (hq : q ∈ tagTokens 0 (Token.lex source)) : ['>'] <:+ q.2.text := by
  obtain ⟨hplaced, hkind⟩ := List.mem_filter.mp hq
  rw [beq_iff_eq] at hkind
  have hmem : q.2 ∈ Token.lex source := mem_of_mem_placed hplaced
  have hcomplete : q.2.complete := by
    by_contra hc
    rw [Bool.not_eq_true] at hc
    have hform := hb.form_of_unfinished hmem hc
    simp only [Token.kind?] at hkind
    split at hkind <;> simp_all
  refine (delimiters_of_mem_lex hmem hcomplete ?_).2
  intro hf
  simp [Token.kind?, hf] at hkind

theorem exists_getElem?_of_map_eq {α β γ : Type} {f : α → γ} {g : β → γ} {xs : List α} {ys : List β}
    (h : xs.map f = ys.map g) {k : Nat} {x : α} (hx : xs[k]? = some x) :
    ∃ y, ys[k]? = some y ∧ f x = g y := by
  have hk := congrArg (·[k]?) h
  simp only [List.getElem?_map, hx, Option.map_some] at hk
  obtain ⟨y, hy, hxy⟩ := Option.map_eq_some_iff.mp hk.symm
  exact ⟨y, hy, hxy.symm⟩

section

variable {source : List Char} {doc : Document} {s : Scan} {ms : List (Nat × Markup)}
  (hs : scan source = .ok s)
  (hnames : (doc.root.descendants.filter Node.isElement).map Node.name? =
    (ms.filter fun p => p.2.isTag).map fun p => p.2.tagName?)
  (hlocation : ∀ (k : Nat) n, (doc.root.descendants.filter Node.isElement)[k]? = some n →
    doc.location? n = s.elementSpans[k]?.map (⟨·, s.lines, source⟩))

include hs hnames hlocation

theorem tagsLocated_iff : doc.TagsLocated ms ↔ InStep SamePlace ms source := by
  have hlocated : ∀ (k : Nat) n (p : Nat × Markup),
      (doc.root.descendants.filter Node.isElement)[k]? = some n →
      ((∃ l, doc.location? n = some l ∧ l.startOffset = p.1) ↔
        ∃ q, (tagTokens 0 (Token.lex source))[k]? = some q ∧ SamePlace p q) := by
    intro k n p hn
    refine exists_location_iff hs (hlocation k n hn) ?_
    intro q _ span hspan
    rw [Location.startOffset, hspan.start, SamePlace, eq_comm]
  have hlen := congrArg List.length hnames
  rw [List.length_map, List.length_map] at hlen
  rw [Document.TagsLocated, InStep, exists_forall₂_prefix_iff]
  constructor
  · intro hall k p hp
    obtain ⟨n, hn, -⟩ := exists_getElem?_of_map_eq hnames.symm hp
    obtain ⟨hk, rfl⟩ := List.getElem?_eq_some_iff.mp hp
    obtain ⟨hk', rfl⟩ := List.getElem?_eq_some_iff.mp hn
    exact (hlocated k _ _ hn).mp ((List.forall₂_iff_get.mp hall).2 k hk' hk)
  · intro hall
    refine List.forall₂_iff_get.mpr ⟨hlen, ?_⟩
    intro k hk hk'
    exact (hlocated k _ _ (List.getElem?_eq_getElem hk)).mpr (hall k _ (List.getElem?_eq_getElem hk'))

theorem namesLocated_iff : doc.NamesLocated ↔ InStep SameName ms source := by
  obtain ⟨hb, -⟩ := scan_eq_ok_iff.mp hs
  -- What the location of an element says beyond its name holds at every tag.
  have hlocated : ∀ (k : Nat) n name,
      (doc.root.descendants.filter Node.isElement)[k]? = some n →
      ((∃ l, doc.location? n = some l ∧
          (∃ t, l.head? = some t ∧ '<' :: name <+: t ∧ ['>'] <:+ t) ∧
          ∃ t, l.text? = some t ∧ ['>'] <:+ t) ↔
        ∃ q, (tagTokens 0 (Token.lex source))[k]? = some q ∧ '<' :: name <+: q.2.text) := by
    intro k n name hn
    refine exists_location_iff hs (hlocation k n hn) ?_
    intro q hq span hspan
    constructor
    · rintro ⟨⟨t, ht, hname, -⟩, -⟩
      rwa [Option.some.inj (hspan.head.symm.trans ht)]
    · intro hname
      exact ⟨⟨_, hspan.head, hname, delimiters_of_mem_tagTokens hb hq⟩, hspan.text⟩
  rw [Document.NamesLocated, InStep, exists_forall₂_prefix_iff]
  constructor
  · intro hall k p hp
    obtain ⟨n, hn, hname⟩ := exists_getElem?_of_map_eq hnames.symm hp
    obtain ⟨hmem, -⟩ := List.mem_filter.mp (List.mem_of_getElem? hn)
    have hm : p.2.isTag := (List.mem_filter.mp (List.mem_of_getElem? hp)).2
    obtain ⟨name, hp'⟩ := Markup.exists_tagName? hm
    obtain ⟨q, hq, hq'⟩ := (hlocated k n _ hn).mp (hall n hmem name (hname.symm.trans hp'))
    exact ⟨q, hq, name, hp', hq'⟩
  · intro hall n hn name hname
    have helement : n ∈ doc.root.descendants.filter Node.isElement := by
      refine List.mem_filter.mpr ⟨hn, ?_⟩
      cases n <;> simp_all [Node.name?, Node.isElement, Node.kind]
    obtain ⟨k, hk⟩ := List.getElem?_of_mem helement
    obtain ⟨p, hp, hname'⟩ := exists_getElem?_of_map_eq hnames hk
    obtain ⟨q, hq, name', hp', hq'⟩ := hall k p hp
    obtain rfl : name = name' := Option.some.inj (hname.symm.trans (hname'.trans hp'))
    exact (hlocated k n _ hk).mpr ⟨q, hq, hq'⟩

end

/-- **Where the elements of a document are located.** The list holds what the reader found. -/
theorem located_iff_inStep {source : List Char} {doc : Document}
    (h : Document.parse {} source = .ok doc) :
    ∃ ms, Reads 0 source ms ∧ (∀ ms', Reads 0 source ms' → ms' = ms) ∧
      (doc.NamesLocated ↔ InStep SameName ms source) ∧
      (doc.TagsLocated ms ↔ InStep SamePlace ms source) ∧
      (doc.TagsLocated ms → doc.NamesLocated) ∧
      ((∀ p ∈ ms, p.2.Agrees) → doc.TagsLocated ms) := by
  obtain ⟨s, ms, hs, hms, hnames, hlocation⟩ := elements_of_parse rfl h
  have hname := namesLocated_iff hs hnames hlocation
  have htag := tagsLocated_iff hs hnames hlocation
  refine ⟨ms, hms, fun _ => hms.unique, hname, htag, ?_, ?_⟩
  · intro ht
    exact hname.mpr ((htag.mp ht).sameName hms)
  · intro ha
    exact htag.mpr (inStep_of_agrees hms ha)

/-- In an attribute value a `>` and a tag are text to both readings. -/
theorem namesLocated_quoted_tag : ∃ doc,
    Document.parse {} "<a b='><d/>'><c/></a>".toList = .ok doc ∧ doc.NamesLocated := by
  cases h : Document.parse {} "<a b='><d/>'><c/></a>".toList with
  | error e =>
    have hok : (Document.parse {} "<a b='><d/>'><c/></a>".toList).isOk = true := by decide +kernel
    rw [h] at hok
    exact absurd hok (by simp [Except.isOk, Except.toBool])
  | ok doc =>
    obtain ⟨ms, -, hunique, -, -, hnames, hagrees⟩ := located_iff_inStep h
    have hreads : Reads 0 "<a b='><d/>'><c/></a>".toList
        [(0, .startTag "a b='><d/>'".toList), (13, .emptyTag ['c']), (17, .endTag ['a'])] :=
      .cons (u := []) (by simp) rfl (.cons (u := []) (by simp) rfl (.cons (u := []) (by simp) rfl
        (.nil (by simp))))
    obtain rfl := hunique _ hreads
    refine ⟨doc, rfl, hnames (hagrees ?_)⟩
    simp [Markup.Agrees]

/-- In a document type they differ. What a reader takes for the root is located at another element,
which to the reader is in a comment. -/
theorem not_namesLocated_quoted_doctype : ∃ doc,
    Document.parse {} "<!DOCTYPE a SYSTEM \"><b/><!--\"><a/><!-- -->".toList = .ok doc ∧
      ¬ doc.NamesLocated := by
  have hrun : ((Document.parse {} "<!DOCTYPE a SYSTEM \"><b/><!--\"><a/><!-- -->".toList).toOption.any
      fun d => d.root.descendants.any fun n => n.name? == some "b" &&
        (d.location? n).any fun l => l.head? == some "<a/>".toList) = true := by decide +kernel
  cases h : Document.parse {} "<!DOCTYPE a SYSTEM \"><b/><!--\"><a/><!-- -->".toList with
  | error e =>
    rw [h] at hrun
    exact absurd hrun (by simp [Except.toOption])
  | ok doc =>
    rw [h] at hrun
    simp only [Except.toOption, Option.any_some, List.any_eq_true, Bool.and_eq_true, beq_iff_eq,
      Option.any_eq_true] at hrun
    obtain ⟨n, hn, hname, l, hl, hhead⟩ := hrun
    refine ⟨doc, rfl, ?_⟩
    intro hall
    obtain ⟨l', hl', ⟨t, ht, hpre, -⟩, -⟩ := hall n hn "b" hname
    obtain rfl : l = l' := Option.some.inj (hl.symm.trans hl')
    obtain rfl : "<a/>".toList = t := Option.some.inj (hhead.symm.trans ht)
    exact absurd hpre (by decide)

end XmlLocate
