import XmlLocate.Json.Number
import XmlLocate.LineTable
import XmlLocate.Text.Decimal
import XmlLocate.Text.Escape

/-!
# Decoding JSON

Values are decoded from JSON with an error that names the first thing that is wrong. A record is an
object, or an array of its fields in their order; unknown fields are ignored. Fields are checked in
the order in which they stand, and missing ones are noticed after that.
-/

namespace XmlLocate

inductive DecodeError where
  | invalidType (found expected : String)
  | invalidValue (found expected : String)
  | invalidLength (length : Nat) (expected : String)
  | missingField (name : String)
  | unknownVariant (name : String) (known : List String)
  | invalidTable (cause : LineTable.Invalid)
  deriving DecidableEq, Repr

namespace DecodeError

/-- A name between grave accents. -/
def code (s : String) : String := "\x60" ++ s ++ "\x60"

def message : DecodeError → String
  | invalidType found expected => s!"invalid type: {found}, expected {expected}"
  | invalidValue found expected => s!"invalid value: {found}, expected {expected}"
  | invalidLength n expected => s!"invalid length {n}, expected {expected}"
  | missingField name => "missing field " ++ code name
  | unknownVariant name known =>
    "unknown variant " ++ code name ++ ", expected one of " ++ ", ".intercalate (known.map code)
  | invalidTable (.notIncreasing a b) =>
    s!"line starts must be strictly increasing, found {a} then {b}"
  | invalidTable (.pastEnd s n) => s!"line start {s} is past the end of the text ({n})"

end DecodeError

namespace Json

/-- A string in an error: between quotes and escaped, but for the single quotes in it. -/
def shown (s : String) : String :=
  let char (c : Char) : List Char := if c = '\'' then [c] else escapeChar true c
  "\"" ++ String.ofList (s.toList.flatMap char) ++ "\""

/-- What a value is, in an error. -/
def describe : Json → String
  | null => "null"
  | bool b => "boolean " ++ DecodeError.code (toString b)
  | integer n => "integer " ++ DecodeError.code (toString n)
  | float x => "floating point " ++ DecodeError.code (floatText x)
  | string s => "string " ++ shown s
  | array _ => "sequence"
  | object _ => "map"

def decodeNatural (j : Json) : Except DecodeError Nat :=
  match j with
  | integer n =>
    if 0 ≤ n ∧ n ≤ maxOffset then .ok n.toNat
    else .error (.invalidValue j.describe "usize")
  | _ => .error (.invalidType j.describe "usize")

def decodeList {α : Type} (item : Json → Except DecodeError α) : Json → Except DecodeError (List α)
  | array items => items.mapM item
  | j => .error (.invalidType j.describe "a sequence")

/-- Null stands for a value that is not there. -/
def decodeOption {α : Type} (item : Json → Except DecodeError α) :
    Json → Except DecodeError (Option α)
  | null => .ok none
  | j => some <$> item j

/-! ## Records -/

/-- The known fields of a record in the order in which they stand. -/
structure Record where
  fields : List (String × Json)
  /-- The error for a field that is not there. -/
  missing : String → DecodeError
  /-- Whether a field that may be empty may be left out. -/
  optional : Bool
  /-- The error for what is too much. -/
  surplus : Option DecodeError

namespace Record

def ofJson (name : String) (known : List String) : Json → Except DecodeError Record
  | object fields => .ok ⟨fields.filter (known.contains ·.1), .missingField, true, none⟩
  | array items =>
    let short := .invalidLength items.length s!"struct {name} with {known.length} elements"
    let long := .invalidLength items.length "fewer elements in array"
    .ok ⟨known.zip items, fun _ => short, false,
      if known.length < items.length then some long else none⟩
  | j => .error (.invalidType j.describe s!"struct {name}")

/-- Checks the values of all fields that are there. -/
def check (r : Record) (value : String → Json → Except DecodeError Unit) :
    Except DecodeError Unit :=
  r.fields.forM fun (k, v) => value k v

def get {α : Type} (r : Record) (name : String) (value : Json → Except DecodeError α) :
    Except DecodeError α :=
  match r.fields.lookup name with
  | some v => value v
  | none => .error (r.missing name)

def get? {α : Type} (r : Record) (name : String) (value : Json → Except DecodeError α) :
    Except DecodeError (Option α) :=
  match r.fields.lookup name with
  | some v => decodeOption value v
  | none => if r.optional then .ok none else .error (r.missing name)

/-- Checks that nothing is too much. -/
def close (r : Record) : Except DecodeError Unit :=
  match r.surplus with
  | some e => .error e
  | none => .ok ()

end Record

end Json

end XmlLocate
