import XmlLocate.CommandLine

/-!
# The program
-/

namespace XmlLocate

/-- The number of a system error, which may be held negated in 32 bits. -/
def errorNumber (code : UInt32) : Nat := min code.toNat (0 - code).toNat

/-- The system's words for an error, with its number. -/
def systemMessage : IO.Error → String
  | .noFileOrDirectory _ code _ => s!"No such file or directory (os error {errorNumber code})"
  | .permissionDenied _ code _ => s!"Permission denied (os error {errorNumber code})"
  | .inappropriateType _ code details =>
    s!"{details.capitalize} (os error {errorNumber code})"
  | e => toString e

/-- Reads a file as text. -/
def readSource (file : String) : IO (Except FileError (List Char)) := do
  try
    let bytes ← IO.FS.readBinFile file
    return match String.fromUTF8? bytes with
      | some s => .ok s.toList
      | none => .error .notText
  catch e => return .error (.unreadable (systemMessage e))

end XmlLocate

def main (args : List String) : IO UInt32 := do
  let content ← match XmlLocate.Command.ofArguments args with
    | some (.spans file _) | some (.locate file _ _) => XmlLocate.readSource file
    | _ => pure (.error .notText)
  let outcome := XmlLocate.run args fun _ => content
  IO.print outcome.stdout
  IO.eprint outcome.stderr
  return outcome.exit.toUInt32
