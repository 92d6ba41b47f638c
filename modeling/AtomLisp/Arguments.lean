/-!
# Arguments

The usual conventions tell the arguments of a program apart. A flag is written as a letter after one
hyphen or as a name after two; letters can be put together after one hyphen, and none of the flags
takes a value. Everything else is an input, a hyphen by itself included, and after `--` every
argument is. To ask for help or for the version, or to name a flag that there is not, settles what
is done, whatever comes after it. That a flag was given too often is noticed only at the end.
-/

namespace AtomLisp

/-! ### Flags -/

/-- The flags, of which the program itself declares three. -/
inductive Flag where
  | help
  | noPrelude
  | selfTest
  | verbose
  | version
deriving DecidableEq, Repr

namespace Flag

/-- The flags in the order in which they are listed. -/
def all : List Flag :=
  [help, noPrelude, selfTest, verbose, version]

/-- What is written after two hyphens. -/
def name : Flag → String
  | help => "help"
  | noPrelude => "no-prelude"
  | selfTest => "self-test"
  | verbose => "verbose"
  | version => "version"

/-- What can be written after one hyphen. -/
def letter? : Flag → Option Char
  | help => some 'h'
  | noPrelude => none
  | selfTest => none
  | verbose => some 'v'
  | version => some 'V'

def description : Flag → String
  | help => "Print help information"
  | noPrelude => "Do not load the library procedures"
  | selfTest => "Run the built-in test suite and exit"
  | verbose => "Increase logging verbosity (overrides RUST_LOG)"
  | version => "Print version information"

/-- May it be given more than once? -/
def isRepeatable (flag : Flag) : Bool :=
  flag = verbose

def ofName? (name : String) : Option Flag :=
  all.find? fun flag => flag.name == name

def ofLetter? (letter : Char) : Option Flag :=
  all.find? fun flag => flag.letter? == some letter

end Flag

/-- What can be wrong with arguments. -/
inductive Misuse where
  /-- There is no flag that is written like this. -/
  | unknown (written : String)
  /-- A flag was given a value. -/
  | valued (flag : Flag) (value : String)
  /-- A flag was given more than once. -/
  | repeated (flag : Flag)
deriving DecidableEq, Repr

/-- The line that reports it. -/
def Misuse.text : Misuse → String
  | unknown written =>
    "error: Found argument '" ++ written ++
      "' which wasn't expected, or isn't valid in this context"
  | valued flag value =>
    "error: The value '" ++ value ++ "' was provided to '--" ++ flag.name
      ++ "' but it wasn't expecting any more values"
  | repeated flag =>
    "error: The argument '--" ++ flag.name
      ++ "' was provided more than once, but cannot be used multiple times"

/-! ### Telling arguments apart -/

/-- An argument as it is understood. Several flags can be written as one. -/
inductive Argument where
  | input (text : String)
  | flag (flag : Flag)
  | misuse (misuse : Misuse)
deriving DecidableEq, Repr

namespace Argument

/-- What is written after two hyphens is the name of a flag, which ends at the first `=`. -/
def ofLong (written : List Char) : Argument :=
  let name := String.ofList (written.takeWhile (· != '='))
  match Flag.ofName? name, written.dropWhile (· != '=') with
  | none, _ => misuse (.unknown ("--" ++ name))
  | some asked, [] => flag asked
  | some asked, _ :: value => misuse (.valued asked (String.ofList value))

/-- A letter after one hyphen. -/
def ofLetter (letter : Char) : Argument :=
  match Flag.ofLetter? letter with
  | none => misuse (.unknown ("-" ++ letter.toString))
  | some asked => flag asked

/-- What is written as one argument, if it is not `--`. -/
def read (argument : String) : List Argument :=
  match argument.toList with
  | '-' :: '-' :: written => [ofLong written]
  | '-' :: letter :: letters => (letter :: letters).map ofLetter
  | _ => [input argument]

/-- What is written as arguments, in order. -/
def readAll : List String → List Argument
  | [] => []
  | "--" :: arguments => arguments.map input
  | argument :: arguments => read argument ++ readAll arguments

def input? : Argument → Option String
  | input text => some text
  | _ => none

def flag? : Argument → Option Flag
  | flag asked => some asked
  | _ => none

end Argument

/-! ### What is asked for -/

/-- How the interpreter is to be run. -/
structure Options where
  /-- Are the procedures of the library defined beforehand? -/
  library : Bool := true
  /-- Are the checks of the library run instead of anything else? -/
  selfTest : Bool := false
  /-- Files and texts to run. Without any, sources are read from the input. -/
  inputs : List String := []
deriving DecidableEq, Repr

/-- What the arguments ask for. -/
inductive Request where
  | help
  | version
  | run (options : Options)
  | misuse (misuse : Misuse)
deriving DecidableEq, Repr

/-- What is settled as soon as this argument is met. -/
def Argument.settles? : Argument → Option Request
  | flag .help => some .help
  | flag .version => some .version
  | misuse found => some (.misuse found)
  | _ => none

namespace Request

/-- The first flag that was given too often. -/
def repeated? (flags : List Flag) : Option Flag :=
  flags.find? fun flag => !flag.isRepeatable && decide (1 < flags.count flag)

/-- What flags and inputs ask for. More messages can be asked for, which makes no difference to what
is done. -/
def ofFlags (flags : List Flag) (inputs : List String) : Request :=
  match repeated? flags with
  | some flag => misuse (.repeated flag)
  | none =>
    run { library := !flags.contains .noPrelude, selfTest := flags.contains .selfTest, inputs }

/-- What arguments ask for that have been told apart. -/
def ofParts (parts : List Argument) : Request :=
  match parts.findSome? Argument.settles? with
  | some request => request
  | none => ofFlags (parts.filterMap Argument.flag?) (parts.filterMap Argument.input?)

/-- What the arguments ask for. -/
def ofArguments (arguments : List String) : Request :=
  ofParts (Argument.readAll arguments)

end Request

/-! ### What is shown of the flags -/

/-- How the version is reported. -/
def versionText : String := "tinylisp 0.1.0-dev\n"

/-- A flag as it is written, with a column for its letter. -/
def Flag.usage (flag : Flag) : String :=
  match flag.letter? with
  | some letter => "-" ++ letter.toString ++ ", --" ++ flag.name
  | none => "    --" ++ flag.name

/-- The line that lists a flag. What is written comes first, in a column of its own. -/
def Flag.line (flag : Flag) : String :=
  let width := (all.map fun flag => flag.usage.length).foldl max 0
  let gap := List.replicate (width - flag.usage.length + 4) ' '
  "    " ++ flag.usage ++ String.ofList gap ++ flag.description ++ "\n"

/-- The text that lists what can be asked for. -/
def helpText : String :=
  versionText
    ++ "Interpreter for a minimal Scheme-like language\n"
    ++ "\nUSAGE:\n    tinylisp [OPTIONS] [INPUT]...\n"
    ++ "\nARGS:\n    <INPUT>...    "
    ++ "Files to run; anything that is not a file is evaluated and displayed\n"
    ++ "\nOPTIONS:\n" ++ String.join (Flag.all.map Flag.line)

end AtomLisp
