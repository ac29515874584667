import XmlLocate.Document
import XmlLocate.Json.Codec
import XmlLocate.Json.Pretty

/-!
# The command line

`spans FILE` lists the spans of a file, `locate FILE` its elements. Each prints lines of text, or
JSON with `--json`. What a run does is a function of its arguments and of what reading a file gives.
-/

namespace XmlLocate

/-! ## Arguments -/

/-- What a run is asked to do. -/
inductive Command where
  | spans (file : String) (json : Bool)
  | locate (file : String) (json withHead : Bool)
  | help
  | version
  deriving DecidableEq, Repr

/-- The arguments that were read behind the name of a command. -/
structure Arguments where
  file : Option String := none
  flags : List String := []
  /-- Whether only files are left to come. -/
  onlyFiles : Bool := false

namespace Arguments

/-- What one more argument leads to. -/
inductive Step where
  | next (a : Arguments)
  | help
  | wrong

/-- Takes a file, of which there can be one and whose name is not empty. -/
def addFile (a : Arguments) (file : String) : Step :=
  if file.isEmpty || a.file.isSome then .wrong else .next { a with file := some file }

/-- Takes a flag, which can be given once. -/
def addFlag (a : Arguments) (known : List String) (flag : String) : Step :=
  if !known.contains flag || a.flags.contains flag then .wrong
  else .next { a with flags := flag :: a.flags }

/-- Reads an argument of a command that knows some flags. A single hyphen is a file. -/
def add (a : Arguments) (known : List String) (arg : String) : Step :=
  match arg.toList with
  | ['-', '-'] => if a.onlyFiles then a.addFile arg else .next { a with onlyFiles := true }
  | '-' :: '-' :: _ =>
    if a.onlyFiles then a.addFile arg
    else if arg = "--help" then .help
    else a.addFlag known arg
  | '-' :: c :: _ => if a.onlyFiles then a.addFile arg else if c = 'h' then .help else .wrong
  | _ => a.addFile arg

/-- Reads the arguments of a command, up to a call for help. -/
def read (known : List String) (make : String → List String → Command) (a : Arguments) :
    List String → Option Command
  | [] => a.file.map (make · a.flags)
  | arg :: args =>
    match a.add known arg with
    | .next a => a.read known make args
    | .help => some .help
    | .wrong => none

end Arguments

/-- The command that arguments ask for, unless they are wrong. -/
def Command.ofArguments : List String → Option Command
  | [] => none
  | "spans" :: args =>
    Arguments.read ["--json"] (fun file flags => .spans file (flags.contains "--json")) {} args
  | "locate" :: args =>
    Arguments.read ["--json", "--with-head"]
      (fun file flags => .locate file (flags.contains "--json") (flags.contains "--with-head"))
      {} args
  | ["help"] | ["help", "help"] | ["help", "spans"] | ["help", "locate"] => some .help
  | arg :: _ =>
    if arg = "--help" then some .help
    else if arg = "--version" then some .version
    else
      match arg.toList with
      | '-' :: 'h' :: _ => some .help
      | '-' :: 'V' :: _ => some .version
      | _ => none

/-! ## Output -/

/-- A line on an element: its name indented by its depth, where it begins and ends, and with `head`
its escaped start tag. -/
def LocatedElement.line (e : LocatedElement) (withHead : Bool) : String :=
  let l := e.location
  let indent := String.ofList (List.replicate (2 * e.depth) ' ')
  let place := s!"{l.startLine}:{l.startColumn}-{l.stopLine}:{l.stopColumn}"
  let head := if withHead then " " ++ String.ofList (escape (l.head?.getD [])) else ""
  indent ++ e.name ++ " " ++ place ++ head

def LocatedElement.toJson (e : LocatedElement) (withHead : Bool) : Json :=
  let head := if withHead then
    [("head", Json.string (String.ofList (e.location.head?.getD [])))] else []
  .object ([("name", .string e.name), ("depth", .natural e.depth),
    ("start", e.location.start.toJson), ("end", e.location.stop.toJson)] ++ head)

def spansOutput (t : LocatedText) (json : Bool) : String :=
  if json then (Json.array (t.spans.toList.map Span.toJson)).pretty ++ "\n" else t.listing

def locateOutput (d : Document) (json withHead : Bool) : String :=
  if json then (Json.array (d.elements.map (·.toJson withHead))).pretty ++ "\n"
  else String.join (d.elements.map fun e => e.line withHead ++ "\n")

/-! ## Runs -/

/-- Why a file has no text. -/
inductive FileError where
  /-- The system's message. -/
  | unreadable (message : String)
  | notText

def FileError.message : FileError → String
  | unreadable m => m
  | notText => "stream did not contain valid UTF-8"

/-- What a run leaves behind. -/
structure Outcome where
  exit : Nat
  stdout : String
  stderr : String
  deriving DecidableEq, Repr

namespace Outcome

def success (stdout : String) : Outcome := ⟨0, stdout, ""⟩

/-- A run that failed with a message and the messages of what is behind it. -/
def failure (messages : List String) : Outcome :=
  ⟨1, "", "Error: " ++ ": ".intercalate messages ++ "\n"⟩

end Outcome

def usage : String :=
  "Report source positions of XML constructs\n\nUsage: xmlspan <COMMAND>\n\nCommands:\n" ++
  "  spans <FILE> [--json]                 List every span the scanner finds\n" ++
  "  locate <FILE> [--json] [--with-head]  Print the location of every element\n\nOptions:\n" ++
  "  -h, --help     Print help\n  -V, --version  Print version\n"

/-- Lists the spans of a file. -/
def runSpans (read : String → Except FileError (List Char)) (file : String) (json : Bool) :
    Outcome :=
  match read file with
  | .error e => .failure ["Failed to read " ++ file, e.message]
  | .ok source =>
    match LocatedText.ofSource source with
    | .error e => .failure ["Failed to scan " ++ file, e.message]
    | .ok t => .success (spansOutput t json)

/-- Lists the elements of a file. -/
def runLocate (read : String → Except FileError (List Char)) (file : String)
    (json withHead : Bool) : Outcome :=
  match read file with
  | .error e => .failure ["Failed to read " ++ file, e.message]
  | .ok source =>
    match Document.parse {} source with
    | .error e => .failure (("Failed to parse " ++ file) :: e.chain)
    | .ok d => .success (locateOutput d json withHead)

/-- A run with the given arguments, where `read` gives the text of a file. -/
def run (args : List String) (read : String → Except FileError (List Char)) : Outcome :=
  match Command.ofArguments args with
  | none => ⟨2, "", usage⟩
  | some .help => .success usage
  | some .version => .success "xmlspan 0.1.0\n"
  | some (.spans file json) => runSpans read file json
  | some (.locate file json withHead) => runLocate read file json withHead

end XmlLocate
