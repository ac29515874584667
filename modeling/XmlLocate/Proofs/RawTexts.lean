import XmlLocate.Proofs.Reading
import XmlLocate.Proofs.References

/-!
# Runs of text as they are written

A reader makes an event of a run of text by replacing its references, and may take the blanks off its
ends before that. `RawReads` gives the events of a text with the runs as they are written, blanks and
references in place. It says nothing of trimming.

**Theorem (`readFrom_eq_iff`).** A reader comes to the end of a text exactly if there are such events and
their runs resolve. What it reads are these events with the data of each run (`dataOf?`) in its place.
Trimming only decides what that is: which texts are read is the same with it and without.
-/

namespace XmlLocate

/-! ## Runs of text -/

/-- The data of a run of text: its characters with the references replaced, if `trimmed` without the
blanks at the ends of the run. A run of which nothing is left has none. -/
def dataOf? (trimmed : Bool) (run : String) : Option String :=
  let run := if trimmed then trim run.toList else run.toList
  if run = [] then none else (resolved? run).map String.ofList

/-- The event of a run of text as it is written. An empty run is no event, nor is one outside the
outermost element. -/
def rawText (opened : List String) (run : List Char) : List Event :=
  if run = [] ∨ opened = [] then [] else [.text (String.ofList run)]

namespace Event

/-- The event with what `f` makes of a text in its place. -/
def withText (f : String → Option String) : Event → List Event
  | text d => (f d).toList.map text
  | e => [e]

theorem withText_of_ne {e : Event} (he : ∀ d, e ≠ text d) (f : String → Option String) :
    e.withText f = [e] := by
  cases e with
  | text d => exact absurd rfl (he d)
  | _ => rfl

/-- Every text among some events has only references that are right. -/
def Resolve (es : List Event) : Prop := ∀ d, text d ∈ es → (resolved? d.toList).isSome

theorem resolve_append {es es' : List Event} : Resolve (es ++ es') ↔ Resolve es ∧ Resolve es' := by
  simp only [Resolve, List.mem_append]
  grind

end Event

/-- Trimming has no part in whether the references of a run are right. -/
theorem isSome_resolved?_trim (trimmed : Bool) (run : List Char) :
    (resolved? (if trimmed then trim run else run)).isSome = (resolved? run).isSome := by
  cases trimmed with
  | false => rfl
  | true =>
    obtain ⟨a, b, -, -, h⟩ := resolved?_trim run
    rw [h, Option.isSome_map]
    rfl

/-- A run is read exactly if its references are right, and becomes an event with its data. -/
theorem readText_eq_ok_iff {trimmed : Bool} {opened : List String} {stop : Nat} {run : List Char}
    {event : Option Event} :
    readText trimmed opened stop run = .ok event ↔
      Event.Resolve (rawText opened run) ∧
        event.toList = (rawText opened run).flatMap (Event.withText (dataOf? trimmed)) := by
  by_cases hnone : run = [] ∨ opened = []
  · have hkept : (if trimmed then trim run else run) = [] ∨ opened = [] := by
      refine hnone.imp_left ?_
      rintro rfl
      cases trimmed <;> rfl
    have hresolve : Event.Resolve [] := by simp [Event.Resolve]
    rw [readText, if_pos hkept, rawText, if_pos hnone, List.flatMap_nil, Option.toList_eq_nil_iff,
      Except.ok.injEq]
    exact ⟨fun h => ⟨hresolve, h.symm⟩, fun h => h.2.symm⟩
  · have hraw : rawText opened run = [.text (String.ofList run)] := if_neg hnone
    have hresolve : Event.Resolve (rawText opened run) ↔ (resolved? run).isSome := by
      simp [hraw, Event.Resolve]
    have hsome := isSome_resolved?_trim trimmed run
    rw [hresolve, ← hsome, hraw, List.flatMap_singleton, Event.withText, dataOf?, String.toList_ofList,
      readText]
    generalize (if trimmed then trim run else run) = kept
    by_cases hkept : kept = []
    · subst hkept
      have hnil : resolved? [] = some [] :=
        resolved?_eq_some_iff.mpr (resolveReferences_of_notMem (by simp))
      rw [if_pos (.inl rfl), if_pos rfl, hnil, Except.ok.injEq, Option.toList_none, List.map_nil,
        Option.toList_eq_nil_iff]
      exact ⟨fun h => ⟨rfl, h.symm⟩, fun h => h.2.symm⟩
    · have hnone : ¬ (kept = [] ∨ opened = []) := fun h => hnone (.inr (h.resolve_left hkept))
      rw [if_neg hnone, if_neg hkept, resolved?]
      cases resolveReferences kept with
      | error e => simp [Except.toOption]
      | ok data =>
        rw [Except.ok.injEq]
        cases event <;> simp [Except.toOption, eq_comm]

theorem exists_readText {trimmed : Bool} {opened : List String} {run : List Char}
    (h : Event.Resolve (rawText opened run)) (stop : Nat) :
    ∃ event, readText trimmed opened stop run = .ok event ∧
      event.toList = (rawText opened run).flatMap (Event.withText (dataOf? trimmed)) := by
  obtain ⟨event, hevent⟩ : ∃ event : Option Event,
      event.toList = (rawText opened run).flatMap (Event.withText (dataOf? trimmed)) := by
    unfold rawText
    split
    · exact ⟨none, rfl⟩
    · refine ⟨(dataOf? trimmed (String.ofList run)).map .text, ?_⟩
      rw [List.flatMap_singleton, Event.withText]
      cases dataOf? trimmed (String.ofList run) <;> rfl
  exact ⟨event, readText_eq_ok_iff.mpr ⟨h, hevent⟩, hevent⟩

/-! ## Reading -/

/-- The events of a text that begins at an offset, within the elements that are open. Runs of text are
left as they are. -/
inductive RawReads : List String → Nat → List Char → List Event → Prop
  | run {opened : List String} {offset : Nat} {u : List Char} : '<' ∉ u →
      RawReads opened offset u (rawText opened u)
  | markup {opened opened' : List String} {offset : Nat} {u t rest : List Char} {m : Markup} {e : Event}
      {es : List Event} : '<' ∉ u → Markup.split t = .ok (m, rest) →
      readMarkup opened (offset + byteLength u) m = .ok (e, opened') →
      RawReads opened' (offset + byteLength u + byteLength m.source) rest es →
      RawReads opened offset (u ++ '<' :: t) (rawText opened u ++ e :: es)

theorem ne_text_of_readMarkup {opened opened' : List String} {offset : Nat} {m : Markup} {e : Event}
    (h : readMarkup opened offset m = .ok (e, opened')) : ∀ d, e ≠ .text d := by
  rintro d rfl
  unfold readMarkup at h
  cases m with
  | startTag c | emptyTag c =>
    obtain ⟨p, -, h⟩ := bind_eq_ok h
    simp [pure, Except.pure] at h
  | endTag c =>
    dsimp only at h
    split at h
    · simp at h
    · split at h <;> simp at h
  | comment | cdata | instruction => simp at h
  | doctype c =>
    dsimp only at h
    split at h <;> simp at h

theorem Reading.prepend_eq_iff {es es' : List Event} {r : Reading} :
    r.prepend es = ⟨es', none⟩ ↔ ∃ rest, r = ⟨rest, none⟩ ∧ es' = es ++ rest := by
  obtain ⟨rest, failure⟩ := r
  simp only [prepend, mk.injEq]
  constructor
  · rintro ⟨rfl, rfl⟩
    exact ⟨rest, ⟨rfl, rfl⟩, rfl⟩
  · rintro ⟨_, ⟨rfl, rfl⟩, rfl⟩
    exact ⟨rfl, rfl⟩

theorem readMarkupFrom_eq_iff {trimmed : Bool} {opened : List String} {offset : Nat} {t : List Char}
    {es : List Event} :
    readMarkupFrom trimmed opened offset t = ⟨es, none⟩ ↔
      ∃ m rest e opened' es', Markup.split t = .ok (m, rest) ∧
        readMarkup opened offset m = .ok (e, opened') ∧
        readFrom trimmed opened' (offset + byteLength m.source) rest = ⟨es', none⟩ ∧
        es = e :: es' := by
  unfold readMarkupFrom
  cases hsplit : Markup.split t with
  | error p => simp [Reading.stopped]
  | ok p =>
    obtain ⟨m, rest⟩ := p
    cases hmarkup : readMarkup opened offset m with
    | error p => simp [Reading.stopped, hmarkup]
    | ok p =>
      obtain ⟨e, opened'⟩ := p
      dsimp only
      rw [hmarkup]
      dsimp only
      rw [Reading.prepend_eq_iff]
      constructor
      · rintro ⟨es', h, rfl⟩
        exact ⟨m, rest, e, opened', es', rfl, hmarkup, h, rfl⟩
      · rintro ⟨m', rest', e', opened'', es', hsplit', hmarkup', h, rfl⟩
        obtain ⟨rfl, rfl⟩ := Prod.mk.inj (Except.ok.inj hsplit')
        obtain ⟨rfl, rfl⟩ := Prod.mk.inj (Except.ok.inj (hmarkup.symm.trans hmarkup'))
        exact ⟨es', h, rfl⟩

theorem readFrom_markup_eq_iff {trimmed : Bool} {opened : List String} {offset : Nat} {u t : List Char}
    {es : List Event} (hu : '<' ∉ u) :
    readFrom trimmed opened offset (u ++ '<' :: t) = ⟨es, none⟩ ↔
      ∃ event es', readText trimmed opened (offset + byteLength u) u = .ok event ∧
        readMarkupFrom trimmed opened (offset + byteLength u) t = ⟨es', none⟩ ∧
        es = event.toList ++ es' := by
  rw [readFrom_markup _ _ _ hu]
  cases readText trimmed opened (offset + byteLength u) u with
  | error e => simp [Reading.stopped]
  | ok event =>
    dsimp only
    rw [Reading.prepend_eq_iff]
    simp

/-- **What a reader reads** are the events with the runs as they are written, but for the data. -/
theorem readFrom_eq_iff {trimmed : Bool} {opened : List String} {offset : Nat} {t : List Char}
    {es : List Event} :
    readFrom trimmed opened offset t = ⟨es, none⟩ ↔
      ∃ raw, RawReads opened offset t raw ∧ Event.Resolve raw ∧
        es = raw.flatMap (Event.withText (dataOf? trimmed)) := by
  constructor
  · intro h
    induction hn : t.length using Nat.strong_induction_on generalizing opened offset t es with
    | _ n ih =>
      subst hn
      rcases exists_append_lt t with ht | ⟨u, t, rfl, hu⟩
      · rw [readFrom_text _ _ _ ht] at h
        cases htext : readText trimmed opened (offset + byteLength t) t with
        | error e => simp [htext, Reading.stopped] at h
        | ok event =>
          rw [htext] at h
          obtain ⟨hresolve, hevent⟩ := readText_eq_ok_iff.mp htext
          exact ⟨_, .run ht, hresolve, (congrArg Reading.events h).symm.trans hevent⟩
      · obtain ⟨event, es, htext, hbehind, rfl⟩ := (readFrom_markup_eq_iff hu).mp h
        obtain ⟨m, rest, e, opened', es, hsplit, hmarkup, hread, rfl⟩ :=
          readMarkupFrom_eq_iff.mp hbehind
        obtain ⟨hresolve, hevent⟩ := readText_eq_ok_iff.mp htext
        have hlt : rest.length < (u ++ '<' :: t).length := by
          have := Markup.length_split hsplit
          simp only [List.length_append, List.length_cons]
          omega
        obtain ⟨raw, hraw, hrest, rfl⟩ := ih _ hlt hread rfl
        have he := ne_text_of_readMarkup hmarkup
        refine ⟨_, .markup hu hsplit hmarkup hraw, ?_, ?_⟩
        · rw [← List.singleton_append, Event.resolve_append, Event.resolve_append]
          refine ⟨hresolve, ?_, hrest⟩
          intro d hd
          exact absurd (List.mem_singleton.mp hd).symm (he d)
        · rw [List.flatMap_append, List.flatMap_cons, Event.withText_of_ne he, hevent]
          rfl
  · rintro ⟨raw, hraw, hresolve, rfl⟩
    induction hraw with
    | run hu =>
      obtain ⟨event, htext, hevent⟩ := exists_readText hresolve _
      rw [readFrom_text _ _ _ hu, htext, ← hevent]
    | markup hu hsplit hmarkup _ ih =>
      rw [← List.singleton_append, Event.resolve_append, Event.resolve_append] at hresolve
      obtain ⟨hbefore, -, hbehind⟩ := hresolve
      obtain ⟨event, htext, hevent⟩ := exists_readText hbefore _
      have hread := readMarkupFrom_eq_iff.mpr ⟨_, _, _, _, _, hsplit, hmarkup, ih hbehind, rfl⟩
      refine (readFrom_markup_eq_iff hu).mpr ⟨event, _, htext, hread, ?_⟩
      rw [List.flatMap_append, List.flatMap_cons,
        Event.withText_of_ne (ne_text_of_readMarkup hmarkup), hevent]
      rfl

end XmlLocate
