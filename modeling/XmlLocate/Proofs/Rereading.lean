import XmlLocate.Proofs.Lockstep
import XmlLocate.Proofs.References
import XmlLocate.Proofs.Written

/-!
# Reading what was written

A piece of markup that was written down is read again as the same piece, whatever text follows it
(`Markup.Rereads`), and its event is the one it stands for.

For a tag this takes that its content can be passed over without finding the end of the tag
(`Passes`), which quoted values may seem to hold, and that its attributes are read one by one
(`readAttributes_source`). For the others it takes only that they do not hold their own delimiter.
-/

namespace XmlLocate

/-! ## Attributes -/

theorem Placed.text_dropBlanks (p : Placed) : p.dropBlanks.text = p.text.dropWhile isBlank := by
  calc p.text.drop (p.text.takeWhile isBlank).length
      = (p.text.takeWhile isBlank ++ p.text.dropWhile isBlank).drop
          (p.text.takeWhile isBlank).length := by rw [List.takeWhile_append_dropWhile]
    _ = p.text.dropWhile isBlank := List.drop_left

theorem Placed.text_drop (p : Placed) (n : Nat) : (p.drop n).text = p.text.drop n := rfl

namespace Written

theorem Name.exists_cons (n : Name) : ∃ c t, n.text = c :: t ∧ isBlank c = false ∧
    ∀ d ∈ t, d ≠ '=' ∧ isBlank d = false := by
  obtain ⟨c, t, h⟩ := List.exists_cons_of_ne_nil n.ne_nil
  have hplain := n.plain
  rw [h] at hplain
  refine ⟨c, t, h, (hplain c (by simp)).1, ?_⟩
  intro d hd
  obtain ⟨hblank, hmem⟩ := hplain d (by simp [hd])
  exact ⟨fun he => hmem (by simp [he]), hblank⟩

theorem keyOf_name (n : Name) (u : List Char) : keyOf (n.text ++ '=' :: u) = n.text := by
  obtain ⟨c, t, h, -, ht⟩ := n.exists_cons
  rw [h, List.cons_append, keyOf, List.takeWhile_append_of_pos fun d hd => ?_]
  · simp
  · simp [ht d hd]

theorem dropWhile_name (n : Name) (u : List Char) :
    (n.text ++ u).dropWhile isBlank = n.text ++ u := by
  obtain ⟨c, t, h, hc, -⟩ := n.exists_cons
  simp [h, hc]

theorem isBlank_of_isQuote {q : Char} (h : isQuote q) : isBlank q = false := by
  simp only [isQuote, Bool.or_eq_true, beq_iff_eq] at h
  rcases h with rfl | rfl <;> decide

theorem readValue_quoted {p : Placed} {q : Char} {value u : List Char} (hq : isQuote q)
    (hv : q ∉ value) (hp : p.text = q :: (value ++ [q] ++ u)) :
    ∃ rest, readValue p = .ok (value, rest) ∧ rest.text = u := by
  have hsplit : splitAround [q] (value ++ [q] ++ u) = some (value, u) :=
    (splitAround_eq_some_iff (by simp)).mpr (firstAt_singleton.mpr ⟨rfl, hv⟩)
  have htext : p.dropBlanks.text = q :: (value ++ [q] ++ u) := by
    rw [Placed.text_dropBlanks, hp]
    simp [isBlank_of_isQuote hq]
  refine ⟨p.dropBlanks.drop (value.length + 2), ?_, ?_⟩
  · unfold readValue
    dsimp only
    rw [htext]
    simp only [hq, if_true, hsplit]
  · rw [Placed.text_drop, htext]
    simp

theorem readAttribute?_source {a : Attribute} {seen : List RawAttribute}
    (hseen : ∀ r ∈ seen, r.key ≠ a.name.text) {p : Placed} {u : List Char}
    (hp : p.text = a.source ++ u) :
    ∃ position rest, readAttribute? seen p = .ok (some (⟨a.name.text, position, a.value⟩, rest)) ∧
      rest.text = u := by
  have h1 : p.dropBlanks.text = a.name.text ++ '=' :: (a.quote :: (a.value ++ [a.quote] ++ u)) := by
    rw [Placed.text_dropBlanks, hp]
    have : a.source ++ u = ' ' :: (a.name.text ++ '=' :: (a.quote :: (a.value ++ [a.quote] ++ u))) := by
      simp [Attribute.source]
    rw [this, List.dropWhile_cons_of_pos (by decide), dropWhile_name]
  have hkey : keyOf p.dropBlanks.text = a.name.text := by rw [h1, keyOf_name]
  have h2 : (p.dropBlanks.drop a.name.text.length).dropBlanks.text =
      '=' :: (a.quote :: (a.value ++ [a.quote] ++ u)) := by
    rw [Placed.text_dropBlanks, Placed.text_drop, h1, List.drop_left]
    rfl
  have h3 : ((p.dropBlanks.drop a.name.text.length).dropBlanks.drop 1).text =
      a.quote :: (a.value ++ [a.quote] ++ u) := by
    rw [Placed.text_drop, h2]
    rfl
  obtain ⟨rest, hvalue, hrest⟩ := readValue_quoted a.isQuote_quote a.plain.1 h3
  have hfind : seen.find? (·.key == a.name.text) = none := by
    rw [List.find?_eq_none]
    intro r hr
    simpa using hseen r hr
  refine ⟨p.dropBlanks.position, rest, ?_, hrest⟩
  unfold readAttribute?
  dsimp only
  rw [hkey, if_neg a.name.ne_nil, h2, if_neg (by simp), hfind]
  simp only [hvalue]
  rfl

theorem readAttributes_source {stop : Nat} {as : List Attribute} {seen : List RawAttribute}
    (hnodup : (as.map fun a => a.name.text).Nodup)
    (hseen : ∀ r ∈ seen, ∀ a ∈ as, r.key ≠ a.name.text) {p : Placed}
    (hp : p.text = as.flatMap Attribute.source) :
    readAttributes stop seen p = .ok (as.map Attribute.toAttribute) := by
  induction as generalizing seen p with
  | nil =>
    have hnone : readAttribute? seen p = .ok none := by
      unfold readAttribute?
      dsimp only
      rw [Placed.text_dropBlanks, hp]
      rfl
    rw [readAttributes]
    split
    · rename_i h
      exact absurd (hnone.symm.trans h) (by simp)
    · rfl
    · rename_i h
      exact absurd (hnone.symm.trans h) (by simp)
  | cons a as ih =>
    rw [List.map_cons, List.nodup_cons] at hnodup
    obtain ⟨position, rest, hread, hrest⟩ := readAttribute?_source
      (fun r hr => hseen r hr a (by simp)) (hp.trans List.flatMap_cons)
    have hothers : readAttributes stop (⟨a.name.text, position, a.value⟩ :: seen) rest =
        .ok (as.map Attribute.toAttribute) := by
      refine ih hnodup.2 ?_ hrest
      intro r hr b hb
      rcases List.mem_cons.mp hr with rfl | hr
      · intro he
        exact hnodup.1 (List.mem_map.mpr ⟨b, hb, he.symm⟩)
      · exact hseen r hr b (List.mem_cons_of_mem _ hb)
    rw [readAttributes]
    split
    · rename_i h
      exact absurd (hread.symm.trans h) (by simp)
    · rename_i h
      exact absurd (hread.symm.trans h) (by simp)
    · rename_i h
      obtain ⟨rfl, rfl⟩ := Prod.mk.inj (Option.some.inj (Except.ok.inj (hread.symm.trans h)))
      rw [resolveReferences_of_notMem a.plain.2.1, hothers]
      rfl

/-! ## Tags -/

/-- What follows a name in a tag. -/
theorem attributes_eq_nil_or_cons (as : List Attribute) :
    as.flatMap Attribute.source = [] ∨ ∃ u, as.flatMap Attribute.source = ' ' :: u := by
  cases as with
  | nil => exact .inl rfl
  | cons a as => exact .inr ⟨_, rfl⟩

theorem takeWhile_content (t : Tag) : t.content.takeWhile (!isBlank ·) = t.name.text := by
  have hname : ∀ c ∈ t.name.text, (!isBlank c) = true := by
    intro c hc
    simp [(t.name.plain c hc).1]
  rw [Tag.content, List.takeWhile_append_of_pos hname]
  rcases attributes_eq_nil_or_cons t.attributes with h | ⟨u, h⟩
  · rw [h]
    simp
  · rw [h, List.takeWhile_cons_of_neg (by decide), List.append_nil]

theorem readTag_content (t : Tag) (stop : Nat) :
    readTag stop t.content = .ok (t.nameString, t.attributeList) := by
  have hattributes : readAttributes stop [] ⟨byteLength t.name.text,
      t.content.drop t.name.text.length⟩ = .ok t.attributeList := by
    refine readAttributes_source t.nodup (by simp) ?_
    rw [Tag.content, List.drop_left]
  unfold readTag
  dsimp only
  rw [takeWhile_content, hattributes]
  rfl

/-- Text that a tag may hold without ending there. -/
def Passes (u : List Char) : Prop :=
  ∀ t, splitTag none (u ++ t) = (splitTag none t).map fun (a, b) => (u ++ a, b)

theorem passes_nil : Passes [] := by
  intro t
  cases h : splitTag none t <;> simp [h]

theorem Passes.append {u v : List Char} (hu : Passes u) (hv : Passes v) : Passes (u ++ v) := by
  intro t
  rw [List.append_assoc, hu, hv, Option.map_map]
  simp [Function.comp_def]

theorem passes_singleton {c : Char} (hc : c ≠ '>') (hq : isQuote c = false) : Passes [c] := by
  intro t
  rw [List.singleton_append, splitTag, if_neg hc, hq]
  rfl

theorem passes_of_forall {u : List Char} (h : ∀ c ∈ u, c ≠ '>' ∧ isQuote c = false) :
    Passes u := by
  induction u with
  | nil => exact passes_nil
  | cons c u ih =>
    obtain ⟨hc, hq⟩ := h c (by simp)
    exact (passes_singleton hc hq).append (ih fun d hd => h d (by simp [hd]))

theorem splitTag_some_append {q : Char} {v : List Char} (hv : q ∉ v) (t : List Char) :
    splitTag (some q) (v ++ q :: t) = (splitTag none t).map fun (a, b) => (v ++ q :: a, b) := by
  induction v with
  | nil => simp [splitTag]
  | cons c v ih =>
    rw [List.mem_cons, not_or] at hv
    rw [List.cons_append, splitTag, if_neg (Ne.symm hv.1), ih hv.2, Option.map_map]
    rfl

theorem passes_quoted {q : Char} {v : List Char} (hq : isQuote q) (hv : q ∉ v) :
    Passes (q :: (v ++ [q])) := by
  intro t
  have hne : q ≠ '>' := by
    rintro rfl
    exact absurd hq (by decide)
  rw [List.cons_append, List.append_assoc, List.singleton_append, splitTag, if_neg hne, if_pos hq,
    splitTag_some_append hv, Option.map_map]
  simp [Function.comp_def]

theorem Name.passes (n : Name) : Passes n.text := by
  apply passes_of_forall
  intro c hc
  obtain ⟨-, hmem⟩ := n.plain c hc
  simp only [List.mem_cons, List.not_mem_nil, or_false, not_or] at hmem
  simp [isQuote, hmem]

theorem Attribute.passes (a : Attribute) : Passes a.source := by
  have hsource : a.source = [' '] ++ (a.name.text ++ (['='] ++ a.quote :: (a.value ++ [a.quote]))) := by
    simp [Attribute.source]
  rw [hsource]
  exact (passes_singleton (by decide) (by decide)).append (a.name.passes.append
    ((passes_singleton (by decide) (by decide)).append
      (passes_quoted a.isQuote_quote a.plain.1)))

theorem Tag.passes (t : Tag) : Passes t.content := by
  refine t.name.passes.append ?_
  induction t.attributes with
  | nil => exact passes_nil
  | cons a as ih => exact a.passes.append ih

theorem splitTag_of_passes {u : List Char} (hu : Passes u) (rest : List Char) :
    splitTag none (u ++ '>' :: rest) = some (u, rest) := by
  rw [hu, splitTag, if_pos rfl]
  simp

end Written

/-! ## Pieces of markup -/

/-- Whatever follows a piece of markup, a reader finds the piece again. -/
def Markup.Rereads (m : Markup) : Prop :=
  ∀ rest, ∃ t, m.source ++ rest = '<' :: t ∧ Markup.split t = .ok (m, rest)

namespace Markup

theorem splitTagWith_of_passes {u : List Char} (hu : Written.Passes u) (make : List Char → Markup)
    (rest : List Char) : splitTagWith make (u ++ '>' :: rest) = .ok (make u, rest) := by
  unfold splitTagWith
  rw [Written.splitTag_of_passes hu]

theorem split_of_ne {c : Char} (hc : c ∉ ['!', '?', '/']) (u : List Char) :
    split (c :: u) = splitTagWith tag (c :: u) := by
  simp only [List.mem_cons, List.not_mem_nil, or_false, not_or] at hc
  unfold split
  split <;> simp_all

theorem splitEnclosed_append {mark close body : List Char} (make : List Char → Markup)
    (problem : MarkupProblem) {rest : List Char} (hc : close ≠ [])
    (h : FirstAt close (body ++ close ++ rest) body rest) :
    splitEnclosed mark close make problem (mark ++ (body ++ close ++ rest)) =
      .ok (make body, rest) := by
  unfold splitEnclosed
  rw [if_pos (List.isPrefixOf_iff_prefix.mpr (List.prefix_append _ _)), List.drop_left,
    (splitAround_eq_some_iff hc).mpr h]

theorem rereads_comment (b : Written.Body ['-', '-', '>']) : (comment b.text).Rereads := by
  intro rest
  have hfirst := firstAt_of_not_infix (p := ['-', '-']) (b := rest) (by decide) b.free
  refine ⟨['!', '-', '-'] ++ (b.text ++ ['-', '-', '>'] ++ rest), by simp [source], ?_⟩
  exact splitEnclosed_append comment .unclosedComment (by simp) hfirst

theorem rereads_cdata (b : Written.Body [']', ']', '>']) : (cdata b.text).Rereads := by
  intro rest
  have hfirst := firstAt_of_not_infix (p := [']', ']']) (b := rest) (by decide) b.free
  refine ⟨['!', '[', 'C', 'D', 'A', 'T', 'A', '['] ++ (b.text ++ [']', ']', '>'] ++ rest),
    by simp [source], ?_⟩
  exact splitEnclosed_append cdata .unclosedCdata (by simp) hfirst

theorem rereads_instruction (i : Written.Instruction) : (instruction i.body).Rereads := by
  intro rest
  have hfirst := firstAt_of_not_infix (p := ['?']) (b := rest) (by decide) i.free
  refine ⟨['?'] ++ (i.body ++ ['?', '>'] ++ rest), by simp [source], ?_⟩
  -- A `>` behind the `<?` would be an error, but there the target begins.
  obtain ⟨c, u, hc⟩ := List.exists_cons_of_ne_nil i.target.ne_nil
  have hne : c ≠ '>' := by
    rintro rfl
    exact (i.target.plain '>' (by simp [hc])).2 (by simp)
  have hbody : i.body = c :: (u ++ i.data) := by simp [Written.Instruction.body, hc]
  have henclosed : splitEnclosed ['?'] ['?', '>'] instruction .unclosedInstruction
      (['?'] ++ (i.body ++ ['?', '>'] ++ rest)) = .ok (instruction i.body, rest) :=
    splitEnclosed_append instruction .unclosedInstruction (by simp) hfirst
  rw [← henclosed, hbody]
  unfold split
  split <;> simp_all

end Markup

namespace Written

theorem Name.exists_ne (n : Name) (v : List Char) :
    ∃ c u, n.text ++ v = c :: u ∧ c ∉ ['!', '?', '/'] := by
  obtain ⟨c, u, h⟩ := List.exists_cons_of_ne_nil n.ne_nil
  refine ⟨c, u ++ v, by rw [h, List.cons_append], ?_⟩
  intro hc
  have hmem := (n.plain c (by simp [h])).2
  simp only [List.mem_cons, List.not_mem_nil, or_false] at hc hmem
  rcases hc with rfl | rfl | rfl <;> simp at hmem

theorem Tag.getLast?_content (t : Tag) : t.content.getLast? ≠ some '/' := by
  intro h
  rw [Tag.content] at h
  rcases List.eq_nil_or_concat t.attributes with hnil | ⟨as, a, has⟩
  · rw [hnil, List.flatMap_nil, List.append_nil] at h
    exact (t.name.plain '/' (List.mem_of_getLast? h)).2 (by simp)
  · have hquote : a.quote ≠ '/' := by
      intro he
      have := a.isQuote_quote
      rw [he] at this
      exact absurd this (by decide)
    rw [has, List.concat_eq_append, List.flatMap_append, List.flatMap_singleton, Attribute.source, ← List.append_assoc,
      ← List.append_assoc, List.getLast?_append] at h
    simp at h
    exact hquote h

theorem Tag.rereads_start (t : Tag) : t.start.Rereads := by
  intro rest
  obtain ⟨c, u, hcons, hc⟩ := t.name.exists_ne (t.attributes.flatMap Attribute.source ++ '>' :: rest)
  have hcontent : t.content ++ '>' :: rest = c :: u := by
    rw [Tag.content, List.append_assoc, hcons]
  refine ⟨t.content ++ '>' :: rest, by simp [Tag.start, Markup.source], ?_⟩
  rw [hcontent, Markup.split_of_ne hc, ← hcontent, Markup.splitTagWith_of_passes t.passes,
    Markup.tag, if_neg t.getLast?_content, Tag.start]

theorem Tag.rereads_whole (t : Tag) : t.whole.Rereads := by
  intro rest
  obtain ⟨c, u, hcons, hc⟩ :=
    t.name.exists_ne (t.attributes.flatMap Attribute.source ++ ['/'] ++ '>' :: rest)
  have hcontent : t.content ++ ['/'] ++ '>' :: rest = c :: u := by
    rw [Tag.content, List.append_assoc, List.append_assoc, ← hcons]
    simp
  have hpasses : Passes (t.content ++ ['/']) :=
    t.passes.append (passes_singleton (by decide) (by decide))
  refine ⟨t.content ++ ['/'] ++ '>' :: rest, by simp [Tag.whole, Markup.source], ?_⟩
  rw [hcontent, Markup.split_of_ne hc, ← hcontent, Markup.splitTagWith_of_passes hpasses]
  simp [Markup.tag, Tag.whole]

theorem Tag.rereads_stop (t : Tag) : t.stop.Rereads := by
  intro rest
  refine ⟨'/' :: (t.name.text ++ '>' :: rest), by simp [Tag.stop, Markup.source], ?_⟩
  exact Markup.splitTagWith_of_passes t.name.passes .endTag rest

theorem Tag.agrees_stop (t : Tag) : t.stop.Agrees := by
  intro h
  exact (t.name.plain '>' h).2 (by simp)

/-! ## Events -/

theorem readMarkup_start (t : Tag) (opened : List String) (offset : Nat) :
    readMarkup opened offset t.start =
      .ok (.startTag t.nameString t.attributeList, t.nameString :: opened) := by
  unfold readMarkup Tag.start
  dsimp only
  rw [readTag_content]
  rfl

theorem readMarkup_whole (t : Tag) (opened : List String) (offset : Nat) :
    readMarkup opened offset t.whole = .ok (.emptyTag t.nameString t.attributeList, opened) := by
  unfold readMarkup Tag.whole
  dsimp only
  rw [readTag_content]
  rfl

theorem endTagName_name (n : Name) : endTagName n.text = String.ofList n.text := by
  obtain ⟨c, u, h, hc, -⟩ := n.exists_cons
  have hall : ¬ n.text.all isBlank := by
    rw [h, List.all_cons, hc]
    simp
  have htrim : trimEnd n.text = n.text := by
    obtain ⟨v, d, hd⟩ := (List.eq_nil_or_concat n.text).resolve_left n.ne_nil
    have hblank : isBlank d = false := (n.plain d (by simp [hd])).1
    rw [trimEnd, hd, List.concat_eq_append, List.reverse_append, List.reverse_singleton, List.singleton_append,
      List.dropWhile_cons_of_neg (by simp [hblank])]
    simp
  rw [endTagName, if_neg hall, htrim]

theorem readMarkup_stop (t : Tag) (outer : List String) (offset : Nat) :
    readMarkup (t.nameString :: outer) offset t.stop = .ok (.endTag t.nameString, outer) := by
  unfold readMarkup Tag.stop
  dsimp only
  rw [endTagName_name]
  exact if_pos rfl

/-! ## How written text begins -/

theorem notMem_append_of_blank {u v : List Char} (hu : '<' ∉ u) (hv : ∀ c ∈ v, isBlank c) :
    '<' ∉ u ++ v := by
  rw [List.mem_append, not_or]
  refine ⟨hu, ?_⟩
  intro hmem
  exact absurd (hv _ hmem) (by decide)

theorem markup_begins (m : Markup) : ['<'] <+: m.source := by
  cases m <;> simp [Markup.source]

namespace Content

theorem source_begins {c : Content} (hc : ¬ c.isText) : ['<'] <+: c.source := by
  cases c with
  | element tag children =>
    rw [source, List.append_assoc]
    exact (markup_begins _).trans (List.prefix_append _ _)
  | text => exact absurd rfl hc
  | empty | cdata | comment | instruction =>
    rw [source]
    exact markup_begins _

/-- What follows a run of text among children is no text. -/
theorem sourceAll_begins {cs : List Content} (h : ∀ d ∈ cs.head?, ¬ d.isText) {v : List Char}
    (hv : ['<'] <+: v) : ['<'] <+: sourceAll cs ++ v := by
  cases cs with
  | nil =>
    rw [sourceAll]
    exact hv
  | cons d cs =>
    rw [sourceAll, List.append_assoc]
    exact (source_begins (h d rfl)).trans (List.prefix_append _ _)

end Content

theorem not_isText_root (d : Written) : ¬ d.root.isText := by
  intro h
  have := d.isElement_root
  cases hroot : d.root <;> simp_all [Content.isElement, Content.isText]

theorem root_begins (d : Written) : ['<'] <+: d.root.source ++ miscSource d.epilog :=
  (Content.source_begins d.not_isText_root).trans (List.prefix_append _ _)

end Written

end XmlLocate
