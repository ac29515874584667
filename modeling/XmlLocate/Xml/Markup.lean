import XmlLocate.Text.Search

/-!
# Markup

What an XML reader finds at a `<`: a tag, a comment, a CDATA section, a processing instruction or a
document type. It is stricter than a scan's tokens where the two differ, and it fails where the
markup has no end.

**Nothing is lost (`source_append_of_split`).** A piece of markup, written out, is the text it was
read from.
-/

namespace XmlLocate

inductive Markup where
  /-- `<…>` -/
  | startTag (content : List Char)
  /-- `<…/>` -/
  | emptyTag (content : List Char)
  /-- `</…>` -/
  | endTag (content : List Char)
  /-- `<!--…-->` -/
  | comment (body : List Char)
  /-- `<![CDATA[…]]>` -/
  | cdata (body : List Char)
  /-- `<?…?>` -/
  | instruction (body : List Char)
  /-- `<!…>`, beginning with the letters `DOCTYPE` -/
  | doctype (content : List Char)
  deriving DecidableEq, Repr

/-- What can be wrong with markup as such. -/
inductive MarkupProblem where
  | unclosedTag | unclosedComment | unclosedCdata | unclosedInstruction | unclosedDoctype
  | unknownMarkup
  deriving DecidableEq, Repr

namespace MarkupProblem

def message : MarkupProblem → String
  | unclosedTag => "tag not closed: \x60>\x60 not found before end of input"
  | unclosedComment => "comment not closed: \x60-->\x60 not found before end of input"
  | unclosedCdata => "CDATA not closed: \x60]]>\x60 not found before end of input"
  | unclosedInstruction =>
    "processing instruction or xml declaration not closed: \x60?>\x60 not found before end of input"
  | unclosedDoctype => "DOCTYPE not closed: \x60>\x60 not found before end of input"
  | unknownMarkup => "unknown or missed symbol in markup"

end MarkupProblem

/-- Cuts a text around the `>` that balances the `<` before it; `inner` more `<` are open between
the two. -/
def splitBalanced : Nat → List Char → Option (List Char × List Char)
  | _, [] => none
  | inner, c :: t =>
    if c = '>' ∧ inner = 0 then some ([], t)
    else
      let inner := if c = '<' then inner + 1 else if c = '>' then inner - 1 else inner
      (splitBalanced inner t).map fun (a, b) => (c :: a, b)

theorem splitBalanced_eq {inner : Nat} {t a b : List Char}
    (h : splitBalanced inner t = some (a, b)) : a ++ ['>'] ++ b = t := by
  induction t generalizing inner a b with
  | nil => simp [splitBalanced] at h
  | cons c t ih =>
    rw [splitBalanced] at h
    split at h
    · obtain ⟨rfl, rfl⟩ := Prod.mk.inj (Option.some.inj h)
      rename_i hc
      rw [hc.1]
      rfl
    · obtain ⟨⟨a', b'⟩, h', he⟩ := Option.map_eq_some_iff.mp h
      obtain ⟨rfl, rfl⟩ := Prod.mk.inj he
      rw [List.cons_append, List.cons_append, ih h']

namespace Markup

/-- How a piece of markup is written. -/
def source : Markup → List Char
  | startTag c => ['<'] ++ c ++ ['>']
  | emptyTag c => ['<'] ++ c ++ ['/', '>']
  | endTag c => ['<', '/'] ++ c ++ ['>']
  | comment b => ['<', '!', '-', '-'] ++ b ++ ['-', '-', '>']
  | cdata b => ['<', '!', '[', 'C', 'D', 'A', 'T', 'A', '['] ++ b ++ [']', ']', '>']
  | instruction b => ['<', '?'] ++ b ++ ['?', '>']
  | doctype c => ['<', '!'] ++ c ++ ['>']

/-- Whether a text begins with `DOCTYPE`, in large or small letters. -/
def isDoctype (t : List Char) : Bool :=
  (t.take 7).map Char.toUpper == ['D', 'O', 'C', 'T', 'Y', 'P', 'E']

/-- A tag other than an end tag, from what stands between its angle brackets. -/
def tag (content : List Char) : Markup :=
  if content.getLast? = some '/' then emptyTag content.dropLast else startTag content

/-- Reads markup that opens with `mark` and ends at the first `close` behind that. -/
def splitEnclosed (mark close : List Char) (make : List Char → Markup) (problem : MarkupProblem)
    (t : List Char) : Except MarkupProblem (Markup × List Char) :=
  match if mark.isPrefixOf t then splitAround close (t.drop mark.length) else none with
  | some (body, rest) => .ok (make body, rest)
  | none => .error problem

/-- Reads a document type, with `t` behind its `<!`. -/
def splitDoctype (t : List Char) : Except MarkupProblem (Markup × List Char) :=
  match if isDoctype t then splitBalanced 0 t else none with
  | some (content, rest) => .ok (doctype content, rest)
  | none => .error .unclosedDoctype

/-- Reads a tag, made of what stands before the `>` that ends it. -/
def splitTagWith (make : List Char → Markup) (t : List Char) :
    Except MarkupProblem (Markup × List Char) :=
  match splitTag none t with
  | some (content, rest) => .ok (make content, rest)
  | none => .error .unclosedTag

/-- The markup that begins with a `<`, and the text that follows it; `t` stands behind the `<`. A
processing instruction does not end at once. -/
def split (t : List Char) : Except MarkupProblem (Markup × List Char) :=
  match t with
  | '!' :: '[' :: _ =>
    splitEnclosed ['!', '[', 'C', 'D', 'A', 'T', 'A', '['] [']', ']', '>'] cdata .unclosedCdata t
  | '!' :: '-' :: _ => splitEnclosed ['!', '-', '-'] ['-', '-', '>'] comment .unclosedComment t
  | '!' :: 'D' :: u => splitDoctype ('D' :: u)
  | '!' :: 'd' :: u => splitDoctype ('d' :: u)
  | '!' :: _ => .error .unknownMarkup
  | '?' :: '>' :: _ => .error .unclosedInstruction
  | '?' :: _ => splitEnclosed ['?'] ['?', '>'] instruction .unclosedInstruction t
  | '/' :: u => splitTagWith endTag u
  | u => splitTagWith tag u

/-! ## Nothing is lost -/

theorem source_tag (c : List Char) : (tag c).source = ['<'] ++ c ++ ['>'] := by
  unfold tag
  split
  · rename_i h
    obtain ⟨u, rfl⟩ := List.getLast?_eq_some_iff.mp h
    simp [source]
  · rfl

theorem source_append_of_splitEnclosed {mark close t rest : List Char} {make : List Char → Markup}
    {problem : MarkupProblem} {m : Markup}
    (hm : ∀ b, (make b).source = '<' :: mark ++ b ++ close)
    (h : splitEnclosed mark close make problem t = .ok (m, rest)) :
    m.source ++ rest = '<' :: t := by
  unfold splitEnclosed at h
  split at h
  · rename_i b r hs
    obtain ⟨rfl, rfl⟩ := Prod.mk.inj (Except.ok.inj h)
    split at hs
    · rename_i hp
      have hp := List.prefix_iff_eq_append.mp (List.isPrefixOf_iff_prefix.mp hp)
      rw [hm, List.append_assoc, List.append_assoc, ← List.append_assoc b, splitAround_eq hs,
        List.cons_append, hp]
    · exact absurd hs (by simp)
  · exact absurd h (by simp)

theorem source_append_of_splitDoctype {t rest : List Char} {m : Markup}
    (h : splitDoctype t = .ok (m, rest)) : m.source ++ rest = '<' :: '!' :: t := by
  unfold splitDoctype at h
  split at h
  · rename_i c r hs
    obtain ⟨rfl, rfl⟩ := Prod.mk.inj (Except.ok.inj h)
    split at hs
    · rw [← splitBalanced_eq hs]
      simp [source]
    · exact absurd hs (by simp)
  · exact absurd h (by simp)

theorem source_append_of_splitTagWith (before : List Char) {t rest : List Char}
    {make : List Char → Markup} {m : Markup}
    (hm : ∀ c, (make c).source = '<' :: before ++ c ++ ['>'])
    (h : splitTagWith make t = .ok (m, rest)) : m.source ++ rest = '<' :: before ++ t := by
  unfold splitTagWith at h
  split at h
  · rename_i c r hs
    obtain ⟨rfl, rfl⟩ := Prod.mk.inj (Except.ok.inj h)
    rw [hm, List.append_assoc, List.append_assoc, ← List.append_assoc c, splitTag_eq hs]
  · exact absurd h (by simp)

theorem source_append_of_split {t rest : List Char} {m : Markup}
    (h : split t = .ok (m, rest)) : m.source ++ rest = '<' :: t := by
  unfold split at h
  split at h
  · exact source_append_of_splitEnclosed (fun _ => rfl) h
  · exact source_append_of_splitEnclosed (fun _ => rfl) h
  · exact source_append_of_splitDoctype h
  · exact source_append_of_splitDoctype h
  · exact absurd h (by simp)
  · exact absurd h (by simp)
  · exact source_append_of_splitEnclosed (fun _ => rfl) h
  · exact source_append_of_splitTagWith ['/'] (fun _ => rfl) h
  · exact source_append_of_splitTagWith [] source_tag h

theorem length_split {t rest : List Char} {m : Markup} (h : split t = .ok (m, rest)) :
    rest.length ≤ t.length := by
  have h1 := congrArg List.length (source_append_of_split h)
  have h2 : 1 ≤ m.source.length := by cases m <;> simp [source]
  rw [List.length_append, List.length_cons] at h1
  omega

end Markup

end XmlLocate
