import ServiceFlow.Document
import ServiceFlow.Text.Visible

/-!
# The command line

Reads a document from a file, compiles it, and writes the bundle. The environment and the access to
files are given to the command.
-/

namespace ServiceFlow.CommandLine

structure Options where
  input : String
  output : Option String
  pretty : Bool
deriving DecidableEq, Repr

inductive Request where
  | help
  | compile (options : Options)
deriving DecidableEq, Repr

inductive ArgumentError where
  | pathMissing (option : String)
  | unknown (argument : String)
  | inputMissing
deriving DecidableEq, Repr

def ArgumentError.message : ArgumentError → String
  | .pathMissing option => option ++ " requires a path"
  | .unknown argument => "Unknown argument: " ++ argument
  | .inputMissing => "--input is required"

def parseFrom (input output : Option String) (pretty : Bool) :
    List String → Except ArgumentError Request
  | [] =>
    match input with
    | some input => .ok (.compile ⟨input, output, pretty⟩)
    | none => .error .inputMissing
  | "--input" :: path :: rest => parseFrom (some path) output pretty rest
  | "--output" :: path :: rest => parseFrom input (some path) pretty rest
  | argument :: rest =>
    if argument = "--help" || argument = "-h" then .ok .help
    else if argument = "--pretty" then parseFrom input output true rest
    else if argument = "--input" || argument = "--output" then .error (.pathMissing argument)
    else .error (.unknown argument)

def parse (arguments : List String) : Except ArgumentError Request :=
  parseFrom none none false arguments

def usage : String :=
  String.intercalate "\n" [
    "Usage: weft-compile [OPTIONS]",
    "",
    "Compile resolver and workflow syntax trees to pipelines and state machines.",
    "",
    "OPTIONS:",
    "    --input <path>       Path to the compilation document (required)",
    "    --output <path>      Output file (default: stdout)",
    "    --pretty             Pretty-print the artifacts",
    "    --help               Show this help message",
    "",
    "ENVIRONMENT:",
    "    WEFT_TEMPLATE_VERSION       Mapping template version (default: 2018-05-29)",
    "    WEFT_MAX_LOOP_ITERATIONS    Bound for while loops in templates (default: 1000)",
    "    WEFT_STATE_NAME_MAX_LEN     Longest state name (default: 75)",
    "    WEFT_PRETTY_OUTPUT          Pretty-print artifacts (default: false)",
    "    RUST_LOG                    Log filter (default: warn)",
    "", ""]

inductive FileError where
  | missing
  | directory
  | other (reason : String)
deriving DecidableEq, Repr

def FileError.message : FileError → String
  | .missing => "No such file or directory (os error 2)"
  | .directory => "Is a directory (os error 21)"
  | .other reason => reason

structure Files (m : Type → Type) where
  read : String → m (Except FileError String)
  write : String → String → m (Except FileError Unit)

structure Outcome where
  code : Nat
  output : String
  errors : String
deriving DecidableEq, Repr

def Outcome.succeed (output : String) : Outcome := ⟨0, output, ""⟩

def Outcome.fail (message : String) : Outcome := ⟨1, "", message ++ "\n"⟩

def codePoint (c : Char) : String :=
  "\\u\x7b" ++ String.ofList (Nat.toDigits 16 c.toNat) ++ "\x7d"

def escapePathChar (c : Char) : String :=
  if c = '\x00' then "\\0"
  else if c = '\t' then "\\t"
  else if c = '\r' then "\\r"
  else if c = '\n' then "\\n"
  else if c = '"' || c = '\\' then String.ofList ['\\', c]
  else if isVisible c then String.singleton c
  else codePoint c

def quotePath (path : String) : String :=
  "\"" ++ String.join (path.toList.map escapePathChar) ++ "\""

def compileText (settings : Settings) (pretty : Bool) (text : String) : Except String String :=
  match Document.ofText? text with
  | none => .error "Error parsing compilation document: not a compilation document"
  | some document =>
    match document.compile settings with
    | .error e => .error ("Compilation failed: " ++ e.message)
    | .ok bundle => .ok (bundle.text (pretty || settings.prettyOutput))

def deliver {m : Type → Type} [Monad m] (files : Files m) (options : Options) (text : String) :
    m Outcome :=
  match options.output with
  | none => pure (.succeed (text ++ "\n"))
  | some path => do
    match ← files.write path text with
    | .error e =>
      pure (.fail ("Error writing artifacts to " ++ quotePath path ++ ": " ++ e.message))
    | .ok () => pure (.succeed (path ++ "\n"))

def compile {m : Type → Type} [Monad m] (files : Files m) (settings : Settings)
    (options : Options) : m Outcome := do
  match ← files.read options.input with
  | .error e =>
    pure (.fail ("Error reading input file " ++ quotePath options.input ++ ": " ++ e.message))
  | .ok text =>
    match compileText settings options.pretty text with
    | .error message => pure (.fail message)
    | .ok result => deliver files options result

def run {m : Type → Type} [Monad m] (files : Files m) (environment : String → Option String)
    (arguments : List String) : m Outcome :=
  match parse arguments with
  | .error e => pure ⟨1, "", "Error: " ++ e.message ++ "\n\n" ++ usage⟩
  | .ok .help => pure ⟨0, "", usage⟩
  | .ok (.compile options) =>
    match Settings.ofEnvironment environment with
    | .error e => pure (.fail ("Error: " ++ e.message))
    | .ok settings => compile files settings options

end ServiceFlow.CommandLine
