import XmlLocate.Json.Codec
import XmlLocate.Proofs.Nesting
import XmlLocate.Proofs.TableRepair

/-!
# Values and their JSON forms

Positions, ranges, kinds, spans and line tables are decoded from what they are encoded as (`Form`). Their
numbers must fit 64 bits, as others are not decoded; what is decoded fits by itself, so that decoding,
encoding and decoding again comes to the same value.

**Theorem (`decoding_inverts_encoding`).** This holds of all five. A line table is decoded in two steps, of
which the first only reads a list and a length (`rawOfJson`). The second makes a table of exactly those
that can be repaired, names the first fault of the others, and lets no lookup leave the table.
-/

namespace XmlLocate

open Json

/-! ## Forms -/

/-- A JSON form of values of which some fit it: these are decoded from what they are encoded as, and only
such values are decoded. -/
structure Form {α : Type} (toJson : α → Json) (ofJson : Json → Except DecodeError α)
    (Fits : α → Prop) : Prop where
  ofJson_toJson : ∀ v, Fits v → ofJson (toJson v) = .ok v
  fits : ∀ j v, ofJson j = .ok v → Fits v

/-- What is decoded is decoded again from its encoding. -/
theorem Form.ofJson_toJson_of_ofJson {α : Type} {toJson : α → Json}
    {ofJson : Json → Except DecodeError α} {Fits : α → Prop} (h : Form toJson ofJson Fits) {j : Json}
    {v : α} (hv : ofJson j = .ok v) : ofJson (toJson v) = .ok v :=
  h.ofJson_toJson v (h.fits j v hv)

/-! ## Numbers -/

theorem decodeNatural_natural {n : Nat} (h : n ≤ maxOffset) : decodeNatural (natural n) = .ok n :=
  if_pos ⟨Int.natCast_nonneg n, Int.ofNat_le.mpr h⟩

theorem le_of_decodeNatural {j : Json} {n : Nat} (h : decodeNatural j = .ok n) : n ≤ maxOffset := by
  cases j with
  | integer i =>
    rw [decodeNatural] at h
    split_ifs at h with hi
    obtain rfl := Except.ok.inj h
    omega
  | _ => simp [decodeNatural] at h

theorem decodeOption_natural? {o : Option Nat} (h : ∀ n ∈ o, n ≤ maxOffset) :
    decodeOption decodeNatural (natural? o) = .ok o := by
  cases o with
  | none => rfl
  | some n =>
    show some <$> decodeNatural (natural n) = _
    rw [decodeNatural_natural (h n rfl)]
    rfl

/-- A value that may not be there is null, or it is decoded like one that is. -/
theorem decodeOption_eq_ok {α : Type} {item : Json → Except DecodeError α} {j : Json} {o : Option α}
    (h : decodeOption item j = .ok o) :
    (o = none ∧ j = .null) ∨ ∃ a, o = some a ∧ j ≠ .null ∧ item j = .ok a := by
  have hitem : ∀ {j}, some <$> item j = .ok o → ∃ a, o = some a ∧ item j = .ok a := by
    intro j h
    cases hj : item j with
    | error e => simp [hj] at h
    | ok a => exact ⟨a, by simpa [hj] using h.symm, rfl⟩
  cases j with
  | null => exact .inl ⟨(Except.ok.inj h).symm, rfl⟩
  | _ =>
    obtain ⟨a, rfl, ha⟩ := hitem h
    exact .inr ⟨a, rfl, by simp, ha⟩

theorem decodeList_natural {s : List Nat} (h : ∀ x ∈ s, x ≤ maxOffset) :
    decodeList decodeNatural (.array (s.map natural)) = .ok s := by
  show (s.map natural).mapM decodeNatural = _
  induction s with
  | nil => rfl
  | cons a t ih =>
    rw [List.map_cons, List.mapM_cons, decodeNatural_natural (h a List.mem_cons_self),
      ih fun x hx => h x (List.mem_cons_of_mem a hx)]
    rfl

/-! ## Records -/

section

variable {α β ε : Type}

theorem ok_bind (a : α) (f : α → Except ε β) : (.ok a >>= f) = f a := rfl

theorem discard_ok (a : α) : discard (.ok a : Except ε α) = .ok () := rfl

end

/-- The value of a field of a record, which is an object or an array of its fields in their order. -/
def Json.field? (known : List String) (name : String) : Json → Option Json
  | object fields => fields.lookup name
  | array items => (known.zip items).lookup name
  | _ => none

namespace Json.Record

variable {α : Type} {r : Record} {name : String} {value : Json → Except DecodeError α}

theorem get_eq_ok {a : α} (h : r.get name value = .ok a) : ∃ v, value v = .ok a := by
  unfold get at h
  cases hv : r.fields.lookup name with
  | none => simp [hv] at h
  | some v => exact ⟨v, by simpa [hv] using h⟩

/-- A field that may be empty is left out or null, or it is decoded. -/
theorem get?_eq_ok {o : Option α} (h : r.get? name value = .ok o) :
    (o = none ∧ ∀ v ∈ r.fields.lookup name, v = .null) ∨
      ∃ v a, r.fields.lookup name = some v ∧ v ≠ .null ∧ o = some a ∧ value v = .ok a := by
  unfold get? at h
  cases hv : r.fields.lookup name with
  | none =>
    rw [hv] at h
    dsimp only at h
    split_ifs at h
    exact .inl ⟨(Except.ok.inj h).symm, by simp⟩
  | some v =>
    rw [hv] at h
    obtain ⟨ho, rfl⟩ | ⟨a, ho, hne, ha⟩ := decodeOption_eq_ok h
    · exact .inl ⟨ho, by simp⟩
    · exact .inr ⟨v, a, rfl, hne, ho, ha⟩

theorem lookup_filter {fields : List (String × Json)} {p : String × Json → Bool}
    (hp : ∀ v, p (name, v)) : (fields.filter p).lookup name = fields.lookup name := by
  induction fields with
  | nil => rfl
  | cons f fields ih =>
    obtain ⟨k, v⟩ := f
    rw [List.lookup_cons]
    by_cases hk : name = k
    · subst hk
      rw [List.filter_cons_of_pos (hp v), List.lookup_cons]
      simp
    · have hne : (name == k) = false := beq_false_of_ne hk
      rw [List.filter_cons]
      split_ifs <;> simp [List.lookup_cons, hne, ih]

/-- The known fields of a record are those that stand in its form. -/
theorem lookup_ofJson {record : String} {known : List String} {j : Json}
    (hr : Record.ofJson record known j = .ok r) (hname : name ∈ known) :
    r.fields.lookup name = field? known name j := by
  cases j with
  | object fields =>
    obtain rfl := Except.ok.inj hr
    exact lookup_filter fun v => by simpa using hname
  | array items =>
    obtain rfl := Except.ok.inj hr
    rfl
  | _ => simp [Record.ofJson] at hr

/-- A field that may be empty is empty exactly if it is left out or null. -/
theorem eq_none_iff_of_get? {record : String} {known : List String} {j : Json} {o : Option α}
    (hr : Record.ofJson record known j = .ok r) (hname : name ∈ known)
    (h : r.get? name value = .ok o) : o = none ↔ ∀ v ∈ field? known name j, v = .null := by
  rw [← lookup_ofJson hr hname]
  obtain ⟨ho, hnull⟩ | ⟨v, a, hv, hne, ho, -⟩ := get?_eq_ok h
  · exact iff_of_true ho hnull
  · exact iff_of_false (by simp [ho]) fun hnull => hne (hnull v hv)

theorem le_of_get? {o : Option Nat} (h : r.get? name decodeNatural = .ok o) :
    ∀ n ∈ o, n ≤ maxOffset := by
  rintro n rfl
  obtain ⟨ho, -⟩ | ⟨v, a, -, -, ho, ha⟩ := get?_eq_ok h
  · simp at ho
  · obtain rfl := Option.some.inj ho
    exact le_of_decodeNatural ha

end Json.Record

/-! ## Positions -/

def Position.Fits (p : Position) : Prop :=
  p.offset ≤ maxOffset ∧ p.row ≤ maxOffset ∧ p.column ≤ maxOffset

theorem Position.form : Form toJson ofJson Fits where
  ofJson_toJson p h := by
    obtain ⟨h1, h2, h3⟩ := h
    simp [toJson, ofJson, Record.ofJson, Record.check, Record.get, Record.close, decodeNatural_natural,
      discard_ok, ok_bind, List.lookup_cons, h1, h2, h3]
  fits j p h := by
    obtain ⟨r, -, h⟩ := bind_eq_ok h
    obtain ⟨-, -, h⟩ := bind_eq_ok h
    obtain ⟨offset, hoffset, h⟩ := bind_eq_ok h
    obtain ⟨row, hrow, h⟩ := bind_eq_ok h
    obtain ⟨column, hcolumn, h⟩ := bind_eq_ok h
    obtain ⟨-, -, h⟩ := bind_eq_ok h
    obtain rfl := Except.ok.inj h
    obtain ⟨_, hoffset⟩ := Record.get_eq_ok hoffset
    obtain ⟨_, hrow⟩ := Record.get_eq_ok hrow
    obtain ⟨_, hcolumn⟩ := Record.get_eq_ok hcolumn
    exact ⟨le_of_decodeNatural hoffset, le_of_decodeNatural hrow, le_of_decodeNatural hcolumn⟩

/-! ## Ranges -/

def Range.Fits (r : Range) : Prop := r.start.Fits ∧ r.stop.Fits

theorem Range.form : Form toJson ofJson Fits where
  ofJson_toJson r h := by
    obtain ⟨hstart, hstop⟩ := h
    have hstart := Position.form.ofJson_toJson _ hstart
    have hstop := Position.form.ofJson_toJson _ hstop
    simp [toJson, ofJson, Record.ofJson, Record.check, Record.get, Record.close, discard_ok, ok_bind,
      List.lookup_cons, hstart, hstop]
  fits j r h := by
    obtain ⟨_, -, h⟩ := bind_eq_ok h
    obtain ⟨-, -, h⟩ := bind_eq_ok h
    obtain ⟨start, hstart, h⟩ := bind_eq_ok h
    obtain ⟨stop, hstop, h⟩ := bind_eq_ok h
    obtain ⟨-, -, h⟩ := bind_eq_ok h
    obtain rfl := Except.ok.inj h
    obtain ⟨_, hstart⟩ := Record.get_eq_ok hstart
    obtain ⟨_, hstop⟩ := Record.get_eq_ok hstop
    exact ⟨Position.form.fits _ _ hstart, Position.form.fits _ _ hstop⟩

/-! ## Spans -/

theorem SpanKind.form : Form toJson ofJson fun _ => True where
  ofJson_toJson k _ := by
    cases k <;> decide
  fits _ _ _ := trivial

def Span.Fits (s : Span) : Prop :=
  s.sequence ≤ maxOffset ∧ s.start ≤ maxOffset ∧ (∀ n ∈ s.headEnd, n ≤ maxOffset) ∧
    ∀ n ∈ s.stop, n ≤ maxOffset

/-- The names of the fields of a span. -/
def Span.fieldNames : List String := ["sequence", "kind", "start", "head_end", "end"]

/-- The fields of a span that is decoded are those of a record. -/
theorem Span.exists_record {j : Json} {s : Span} (h : ofJson j = .ok s) :
    ∃ r, Record.ofJson "SourceSpan" fieldNames j = .ok r ∧
      r.get "sequence" decodeNatural = .ok s.sequence ∧ r.get "kind" SpanKind.ofJson = .ok s.kind ∧
      r.get "start" decodeNatural = .ok s.start ∧ r.get? "head_end" decodeNatural = .ok s.headEnd ∧
      r.get? "end" decodeNatural = .ok s.stop := by
  obtain ⟨r, hr, h⟩ := bind_eq_ok h
  obtain ⟨-, -, h⟩ := bind_eq_ok h
  obtain ⟨sequence, hsequence, h⟩ := bind_eq_ok h
  obtain ⟨kind, hkind, h⟩ := bind_eq_ok h
  obtain ⟨start, hstart, h⟩ := bind_eq_ok h
  obtain ⟨headEnd, hhead, h⟩ := bind_eq_ok h
  obtain ⟨stop, hstop, h⟩ := bind_eq_ok h
  obtain ⟨-, -, h⟩ := bind_eq_ok h
  obtain rfl := Except.ok.inj h
  exact ⟨r, hr, hsequence, hkind, hstart, hhead, hstop⟩

theorem Span.form : Form toJson ofJson Fits where
  ofJson_toJson s h := by
    obtain ⟨hsequence, hstart, hhead, hstop⟩ := h
    have hkind := SpanKind.form.ofJson_toJson s.kind trivial
    have hhead := decodeOption_natural? hhead
    have hstop := decodeOption_natural? hstop
    simp [toJson, ofJson, Record.ofJson, Record.check, Record.get, Record.get?, Record.close, discard_ok,
      ok_bind, List.lookup_cons, decodeNatural_natural, hsequence, hkind, hstart, hhead, hstop]
  fits j s h := by
    obtain ⟨r, -, hsequence, -, hstart, hhead, hstop⟩ := exists_record h
    obtain ⟨_, hsequence⟩ := Record.get_eq_ok hsequence
    obtain ⟨_, hstart⟩ := Record.get_eq_ok hstart
    exact ⟨le_of_decodeNatural hsequence, le_of_decodeNatural hstart, Record.le_of_get? hhead,
      Record.le_of_get? hstop⟩

theorem natural?_eq_null_iff {o : Option Nat} : natural? o = .null ↔ o = none := by
  cases o <;> simp [natural?, natural]

/-- An offset that a span has not is left out or null, and is encoded as null. -/
theorem Span.null_iff {j : Json} {s : Span} (h : ofJson j = .ok s) {name : String}
    (hname : name = "head_end" ∨ name = "end") :
    field? fieldNames name s.toJson = some .null ↔ ∀ v ∈ field? fieldNames name j, v = .null := by
  obtain ⟨r, hr, -, -, -, hhead, hstop⟩ := exists_record h
  have hfields : ∀ o, some (natural? o) = some Json.null ↔ o = none := fun o =>
    (Option.some.injEq _ _).to_iff.trans natural?_eq_null_iff
  obtain rfl | rfl := hname
  · exact (hfields s.headEnd).trans (Record.eq_none_iff_of_get? hr (by decide) hhead)
  · exact (hfields s.stop).trans (Record.eq_none_iff_of_get? hr (by decide) hstop)

/-! ## Line tables -/

namespace LineTable

/-- The list and the length that a table is to be made from, as they are decoded. -/
def rawOfJson (j : Json) : Except DecodeError (List Nat × Nat) := do
  let r ← Record.ofJson "RawLineIndex" ["line_starts", "total_length"] j
  r.check fun k v =>
    if k == "line_starts" then discard (decodeList decodeNatural v)
    else discard (decodeNatural v)
  let starts ← r.get "line_starts" (decodeList decodeNatural)
  let length ← r.get "total_length" decodeNatural
  r.close
  return (starts, length)

def rawToJson (s : List Nat) (n : Nat) : Json :=
  .object [("line_starts", .array (s.map natural)), ("total_length", natural n)]

variable {j : Json} {s : List Nat} {n : Nat} {l : LineTable} {e : DecodeError}

/-- A table is made from what is decoded, whatever that is. -/
theorem ofJson_eq (j : Json) : ofJson j =
    rawOfJson j >>= fun p => (ofStarts? p.1 p.2).mapError DecodeError.invalidTable := by
  simp only [ofJson, rawOfJson, bind_assoc, pure_bind]
  refine bind_congr fun r => bind_congr fun _ => bind_congr fun starts => bind_congr fun length =>
    bind_congr fun _ => ?_
  cases ofStarts? starts length <;> rfl

theorem rawOfJson_rawToJson (hs : ∀ x ∈ s, x ≤ maxOffset) (hn : n ≤ maxOffset) :
    rawOfJson (rawToJson s n) = .ok (s, n) := by
  have hs := decodeList_natural hs
  simp [rawToJson, rawOfJson, Record.ofJson, Record.check, Record.get, Record.close, discard_ok,
    ok_bind, List.lookup_cons, decodeNatural_natural, hs, hn]

theorem le_of_rawOfJson (h : rawOfJson j = .ok (s, n)) : n ≤ maxOffset := by
  obtain ⟨r, -, h⟩ := bind_eq_ok h
  obtain ⟨-, -, h⟩ := bind_eq_ok h
  obtain ⟨starts, -, h⟩ := bind_eq_ok h
  obtain ⟨length, hlength, h⟩ := bind_eq_ok h
  obtain ⟨-, -, h⟩ := bind_eq_ok h
  obtain ⟨-, rfl⟩ := Prod.mk.inj (Except.ok.inj h)
  obtain ⟨_, hlength⟩ := Record.get_eq_ok hlength
  exact le_of_decodeNatural hlength

theorem ofJson_eq_ok_iff (h : rawOfJson j = .ok (s, n)) : ofJson j = .ok l ↔
    Repairable s n ∧ l.starts = (withOrigin s).toArray ∧ l.length = n := by
  rw [← ofStarts?_eq_ok_iff, ofJson_eq, h, ok_bind]
  cases ofStarts? s n <;> simp [Except.mapError]

theorem ofJson_eq_error_iff (h : rawOfJson j = .ok (s, n)) : ofJson j = .error e ↔
    ∃ cause, e = .invalidTable cause ∧ Faulty s n cause := by
  simp only [← ofStarts?_eq_error_iff]
  rw [ofJson_eq, h, ok_bind]
  cases ofStarts? s n <;> simp [Except.mapError, eq_comm]

def Fits (l : LineTable) : Prop := l.length ≤ maxOffset

theorem form : Form toJson ofJson Fits where
  ofJson_toJson l h := by
    have hbound : ∀ x ∈ l.starts.toList, x ≤ l.length := fun x hx =>
      l.bounded x (Array.mem_toList_iff.mp hx)
    have hraw : rawOfJson l.toJson = .ok (l.starts.toList, l.length) :=
      rawOfJson_rawToJson (fun x hx => (hbound x hx).trans h) h
    refine (ofJson_eq_ok_iff hraw).mpr ⟨⟨l.increasing, ?_⟩, ?_, rfl⟩
    · intro last hlast
      exact hbound last (List.mem_of_getLast? hlast)
    · have hfirst : l.starts.toList.head? = some 0 := by
        rw [List.head?_eq_getElem?, Array.getElem?_toList, l.first]
      rw [withOrigin_eq, if_pos hfirst, Array.toArray_toList]
  fits j l h := by
    have hj := h
    rw [ofJson_eq] at hj
    obtain ⟨⟨s, n⟩, hraw, -⟩ := bind_eq_ok hj
    obtain ⟨-, -, hn⟩ := (ofJson_eq_ok_iff hraw).mp h
    exact hn.le.trans (le_of_rawOfJson hraw)

/-- A table that was made from a list: it has its starts, with a 0 in front if that was left out, and no
lookup in it leaves it. -/
structure RepairedFrom (s : List Nat) (n : Nat) (l : LineTable) : Prop where
  starts : l.starts.toList = if s.head? = some 0 then s else 0 :: s
  length : l.length = n
  first : l.starts[0]? = some 0
  increasing : l.starts.toList.Pairwise (· < ·)
  bounded : ∀ x ∈ l.starts, x ≤ n
  lookup : ∀ offset, ∃ start, l.starts[l.lineOf offset]? = some start ∧ start ≤ min offset n ∧
    start + l.columnOf offset = min offset n

theorem repairedFrom (hraw : rawOfJson j = .ok (s, n)) (h : ofJson j = .ok l) : RepairedFrom s n l := by
  obtain ⟨-, hstarts, rfl⟩ := (ofJson_eq_ok_iff hraw).mp h
  refine ⟨?_, rfl, l.first, l.increasing, l.bounded, exists_lineStart l⟩
  rw [hstarts, List.toList_toArray, withOrigin_eq]

end LineTable

/-! ## Round trips -/

/-- A form that loses nothing, and that settles: encoding what was decoded leaves it as it is from then
on. -/
structure RoundTrips {α : Type} (toJson : α → Json) (ofJson : Json → Except DecodeError α)
    (Fits : α → Prop) : Prop extends Form toJson ofJson Fits where
  settles : ∀ j j', toJson <$> ofJson j = .ok j' → toJson <$> ofJson j' = .ok j'

theorem Form.roundTrips {α : Type} {toJson : α → Json} {ofJson : Json → Except DecodeError α}
    {Fits : α → Prop} (h : Form toJson ofJson Fits) : RoundTrips toJson ofJson Fits where
  toForm := h
  settles j j' hj := by
    cases hv : ofJson j with
    | error e => simp [hv] at hj
    | ok v =>
      rw [hv] at hj
      obtain rfl := Except.ok.inj hj
      rw [h.ofJson_toJson_of_ofJson hv]
      rfl

/-- **Decoding inverts encoding**, and of line tables it accepts exactly those that can be repaired. -/
theorem decoding_inverts_encoding :
    (∀ s n, (∀ x ∈ s, x ≤ maxOffset) → n ≤ maxOffset →
      LineTable.rawOfJson (LineTable.rawToJson s n) = .ok (s, n)) ∧
    (∀ j e, LineTable.rawOfJson j = .error e → LineTable.ofJson j = .error e) ∧
    (∀ j s n, LineTable.rawOfJson j = .ok (s, n) →
      ((∃ l, LineTable.ofJson j = .ok l) ↔ LineTable.Repairable s n) ∧
      (∀ e, LineTable.ofJson j = .error e ↔
        ∃ cause, e = .invalidTable cause ∧ LineTable.Faulty s n cause) ∧
      ∀ l, LineTable.ofJson j = .ok l → LineTable.RepairedFrom s n l) ∧
    RoundTrips LineTable.toJson LineTable.ofJson LineTable.Fits ∧
    (∀ t, byteLength t ≤ maxOffset →
      (LineTable.ofText t).Fits ∧ ∀ r, scan t = .ok r → r.lines.Fits) ∧
    RoundTrips Span.toJson Span.ofJson Span.Fits ∧
    RoundTrips Position.toJson Position.ofJson Position.Fits ∧
    RoundTrips Range.toJson Range.ofJson Range.Fits ∧
    RoundTrips SpanKind.toJson SpanKind.ofJson (fun _ => True) ∧
    ∀ j s, Span.ofJson j = .ok s → ∀ name, name = "head_end" ∨ name = "end" →
      (field? Span.fieldNames name s.toJson = some .null ↔
        ∀ v ∈ field? Span.fieldNames name j, v = .null) := by
  refine ⟨fun s n => LineTable.rawOfJson_rawToJson, ?_, ?_, LineTable.form.roundTrips, ?_,
    Span.form.roundTrips, Position.form.roundTrips, Range.form.roundTrips, SpanKind.form.roundTrips,
    fun j s h name => Span.null_iff h⟩
  · intro j e he
    rw [LineTable.ofJson_eq, he]
    rfl
  · intro j s n hraw
    refine ⟨?_, fun e => LineTable.ofJson_eq_error_iff hraw, fun l => LineTable.repairedFrom hraw⟩
    constructor
    · rintro ⟨l, hl⟩
      exact ((LineTable.ofJson_eq_ok_iff hraw).mp hl).1
    · intro h
      cases hl : LineTable.ofJson j with
      | ok l => exact ⟨l, rfl⟩
      | error e =>
        obtain ⟨cause, -, hfault⟩ := (LineTable.ofJson_eq_error_iff hraw).mp hl
        exact absurd h hfault.not_repairable
  · intro t ht
    refine ⟨(LineTable.length_ofText t).le.trans ht, ?_⟩
    intro r hr
    exact (length_lines_of_scan hr).le.trans ht

/-- A list with two descents and an end past that of the text, one without the first line, and an object
that leaves out a field of a span. -/
theorem decoded_despite_omissions :
    LineTable.ofJson (LineTable.rawToJson [3, 3, 9, 2] 5) =
      .error (.invalidTable (.notIncreasing 3 3)) ∧
    (∃ l, LineTable.ofJson (LineTable.rawToJson [2, 4] 4) = .ok l ∧
      LineTable.RepairedFrom [2, 4] 4 l ∧ LineTable.ofJson l.toJson = .ok l) ∧
    field? Span.fieldNames "end" (Span.mk 0 .text maxOffset none none).toJson = some .null := by
  obtain ⟨hraw, -, hdecode, htable, -, -, -, -, -, hnull⟩ := decoding_inverts_encoding
  have hmany := hraw [3, 3, 9, 2] 5 (by decide) (by decide)
  have hfew := hraw [2, 4] 4 (by decide) (by decide)
  obtain ⟨-, herror, -⟩ := hdecode _ _ _ hmany
  obtain ⟨hok, -, hrepaired⟩ := hdecode _ _ _ hfew
  obtain ⟨l, hl⟩ := hok.mpr ⟨by decide, by decide⟩
  have hsplit : [3, 3, 9, 2] = [] ++ 3 :: 3 :: [9, 2] := rfl
  have hspan : Span.ofJson (.object [("sequence", natural 0), ("kind", .string "Text"),
    ("start", natural maxOffset), ("head_end", .null)]) = .ok ⟨0, .text, maxOffset, none, none⟩ := rfl
  refine ⟨(herror _).mpr ⟨_, rfl, .descent hsplit (by decide) (by decide)⟩,
    ⟨l, hl, hrepaired l hl, htable.ofJson_toJson l (htable.fits _ l hl)⟩, ?_⟩
  exact (hnull _ _ hspan "end" (.inr rfl)).mpr (by simp [field?, List.lookup_cons])

end XmlLocate
