/-!
# Command lines

The commands and their arguments. An option and its value may stand apart; the value is looked at
only when the next option or file begins, so an option that is not known, or a file too many, is
reported before a bad value in front of it.
-/

namespace RecordLang

/-- The form of a report. -/
inductive OutputFormat where
  | text | json
  deriving DecidableEq, Repr

def OutputFormat.ofText? : String → Option OutputFormat
  | "text" => some text
  | "json" => some json
  | _ => none

/-- What a command line asks for. -/
inductive Command where
  | check (files : List String) (format : OutputFormat) (dumpTypes : Bool)
  | ast (file : String)
  | tokens (file : String)
  deriving DecidableEq, Repr

/-- Why a command line asks for nothing that can be done. -/
inductive UsageError where
  | missingCommand
  | help
  | version
  | unknownCommand
  | missingFile
  | unknownArgument
  | invalidValue
  | repeated
  | unwantedValue
  deriving DecidableEq, Repr

/-- What is told about the error; help is given as a summary of all commands. -/
def UsageError.message : UsageError → String
  | missingCommand | help =>
    "commands:\n" ++
    "  check [--format text|json] [--dump-types] FILES   report the faults in files (also: c)\n" ++
    "  ast FILE                                          show the tree of a program\n" ++
    "  tokens FILE                                       show the tokens of a program\n"
  | version => "0.1.1\n"
  | unknownCommand => "error: unknown command\n"
  | missingFile => "error: no file is given\n"
  | unknownArgument => "error: unexpected argument\n"
  | invalidValue => "error: invalid value\n"
  | repeated => "error: an option is given twice\n"
  | unwantedValue => "error: an option takes no value\n"

namespace Command

/-- The files that a command reads. -/
def files : Command → List String
  | check files _ _ => files
  | ast file | tokens file => [file]

/-- A single argument by its form. -/
inductive Arg where
  | divider
  | long (name : String) (value : Option String)
  | short (letters : List Char)
  | word (text : String)
  deriving DecidableEq, Repr

/-- Splits a long option at its first equals sign. -/
def splitValue : List Char → List Char × Option (List Char)
  | [] => ([], none)
  | c :: cs =>
    if c = '=' then ([], some cs)
    else
      let (name, value) := splitValue cs
      (c :: name, value)

/-- Two dashes alone divide options from files; one dash alone is a word. -/
def Arg.ofText (s : String) : Arg :=
  match s.toList with
  | ['-', '-'] => .divider
  | '-' :: '-' :: cs =>
    let (name, value) := splitValue cs
    .long (String.ofList name) (value.map String.ofList)
  | '-' :: c :: cs => .short (c :: cs)
  | _ => .word s

/-! ### Arguments of a command -/

/-- What a command takes. -/
structure Shape where
  options : Bool
  manyFiles : Bool

/-- Values that were given and not looked at yet. -/
inductive Pending where
  | nothing
  | format (value : Option String)
  | files (names : List String)
  deriving DecidableEq, Repr

/-- What was read of the arguments. -/
structure Scan where
  pending : Pending
  files : List String
  format : Option OutputFormat
  dumpTypes : Bool
  /-- Everything from here on is a file. -/
  filesOnly : Bool

namespace Scan

def start : Scan := ⟨.nothing, [], none, false, false⟩

/-- Takes a value for the format, which may be given once. -/
def setFormat (s : Scan) (value : String) : Except UsageError Scan :=
  if s.format.isSome then .error .repeated
  else match OutputFormat.ofText? value with
    | some f => .ok { s with format := some f }
    | none => .error .invalidValue

/-- Looks at the values that are pending. -/
def settle (s : Scan) : Except UsageError Scan :=
  let t := { s with pending := .nothing }
  match s.pending with
  | .nothing => .ok t
  | .format none => .error .invalidValue
  | .format (some value) => t.setFormat value
  | .files names =>
    if names.any String.isEmpty then .error .invalidValue
    else .ok { t with files := s.files ++ names }

/-- A file was given, looked at or not. -/
def hasFile (s : Scan) : Bool :=
  match s.pending with
  | .files _ => true
  | _ => !s.files.isEmpty

/-- Takes a file. One too many is refused before anything that is pending is looked at. -/
def file (shape : Shape) (s : Scan) (name : String) : Except UsageError Scan :=
  if !shape.manyFiles && s.hasFile then .error .unknownArgument
  else match s.pending with
    | .files names => .ok { s with pending := .files (names ++ [name]) }
    | _ => do pure { (← s.settle) with pending := .files [name] }

/-- Takes a long option. -/
def long (shape : Shape) (s : Scan) (name : String) (value : Option String) :
    Except UsageError Scan :=
  match name, value, shape.options with
  | "help", none, _ => do
    let _ ← s.settle
    .error .help
  | "help", some _, _ => .error .unwantedValue
  | "format", none, true => do pure { (← s.settle) with pending := .format none }
  | "format", some v, true => do (← s.settle).setFormat v
  | "dump-types", none, true => do
    let t ← s.settle
    if t.dumpTypes then .error .repeated else .ok { t with dumpTypes := true }
  | "dump-types", some _, true => .error .unwantedValue
  | _, _, _ => .error .unknownArgument

/-- Takes an argument. -/
def take (shape : Shape) (s : Scan) (arg : String) : Except UsageError Scan :=
  if s.filesOnly then s.file shape arg
  else match Arg.ofText arg with
    | .divider => .ok { s with filesOnly := true }
    | .long name value => s.long shape name value
    | .short ('h' :: _) => do
      let _ ← s.settle
      .error .help
    | .short _ => .error .unknownArgument
    | .word w =>
      if s.pending = .format none then .ok { s with pending := .format (some w) }
      else s.file shape w

/-- What the arguments of a command say, if they name a file. -/
def ofArgs (shape : Shape) (args : List String) : Except UsageError Scan := do
  let s ← (← args.foldlM (take shape) start).settle
  if s.files.isEmpty then .error .missingFile else pure s

end Scan

/-! ### Whole command lines -/

/-- The commands by name. -/
inductive Name where
  | check | ast | tokens | help
  deriving DecidableEq, Repr

def Name.ofText? : String → Option Name
  | "check" | "c" => some check
  | "ast" => some ast
  | "tokens" => some tokens
  | "help" => some help
  | _ => none

/-- Help may be asked for one command, by its name. -/
def helpFor : List String → UsageError
  | [] => .help
  | name :: rest => if (Name.ofText? name).isSome && rest.isEmpty then .help else .unknownCommand

/-- The command of a name with its arguments. -/
def named (name : Name) (args : List String) : Except UsageError Command :=
  match name with
  | .help => .error (helpFor args)
  | .check => do
    let s ← Scan.ofArgs ⟨true, true⟩ args
    pure (.check s.files (s.format.getD .text) s.dumpTypes)
  | .ast => do pure (.ast ((← Scan.ofArgs ⟨false, false⟩ args).files.headD ""))
  | .tokens => do pure (.tokens ((← Scan.ofArgs ⟨false, false⟩ args).files.headD ""))

/-- An option in front of all commands. -/
def globalOption : Arg → UsageError
  | .long "help" none => .help
  | .long "version" none => .version
  | .long "help" (some _) | .long "version" (some _) => .unwantedValue
  | .short ('h' :: _) => .help
  | .short ('V' :: _) => .version
  | .long .. | .short _ => .unknownArgument
  | .divider | .word _ => .unknownCommand

/-- Reads a command line. Behind a divider no command is looked for, and the name of one is as
good as an unknown option. -/
def ofArgs : List String → Except UsageError Command
  | [] => .error .missingCommand
  | arg :: args =>
    match Name.ofText? arg, Arg.ofText arg with
    | some name, _ => named name args
    | none, .divider =>
      match args with
      | [] => .error .missingCommand
      | next :: _ => .error (if (Name.ofText? next).isSome then .unknownArgument else .unknownCommand)
    | none, a => .error (globalOption a)

end Command

end RecordLang
