import AtomLisp.Arguments
import AtomLisp.Library
import AtomLisp.ReadLoop

/-!
# The command line

The program opens a root scope and does one of three things in it: it runs the checks of the
library, or the inputs that it was given, or what it reads. Where that ends with an error, the error
is reported and the status is one; a program that asks to end has not failed.
-/

namespace AtomLisp

/-- The files that there are, by name. -/
abbrev Files := String → Option File

/-- Files of which the bytes are known can be read. -/
instance : Coe (String → Option ByteArray) Files :=
  ⟨fun bytes name => (bytes name).map .readable⟩

/-- How the program ends: its status, and what it writes to the error output. -/
structure Exit where
  status : Nat := 0
  errors : String := ""
deriving DecidableEq, Repr

/-- The program ends with the report of an error. -/
def Exit.report (e : Error) : Exit :=
  { status := 1, errors := e.text ++ "\n" }

/-- How the program ends after an error: silently if it asked to end, else with a report. -/
def Exit.ofError (e : Error) : Exit :=
  if e.isQuit then {} else .report e

/-! ### Inputs -/

/-- Run one input in scope `s`, given the file that it names, if it names one. The text of a file is
run as it is; any other input is run as a text whose value is displayed. -/
def runInput (depth : Nat) (file : Option File) (s : ScopeId) (input : String) : Eval Value :=
  match file with
  | some _ => runFile depth file s
  | none => run depth (displayed input) s

/-- Run one input, and say how the program ends if it ends there. -/
def takeInput (depth : Nat) (file : Option File) (s : ScopeId) (input : String) :
    Eval (Option Exit) := do
  match ← Eval.attempt (runInput depth file s input) with
  | .ok _ => return none
  | .error e => return some (.ofError e)

/-- Run inputs in order in scope `s`, up to the first one that fails. -/
def runInputs (depth : Nat) (files : Files) (s : ScopeId) : List String → Eval Exit
  | [] => return {}
  | input :: inputs => do
    match ← takeInput depth (files input) s input with
    | none => runInputs depth files s inputs
    | some exit => return exit

/-! ### The whole program -/

/-- Run the checks of the library in scope `s`. -/
def runChecks (depth : Nat) (s : ScopeId) : Eval Exit := do
  match ← Eval.attempt (run depth "(run-tests)" s) with
  | .ok _ =>
    Eval.write "\n"
    return {}
  | .error e => return .ofError e

/-- Are sources read from the input? -/
def Options.readsInput (options : Options) : Bool :=
  options.inputs.isEmpty && !options.selfTest

/-- Open the root scope that the options ask for. -/
def Options.openRoot (options : Options) (depth : Nat) : Eval ScopeId := do
  let root ← Eval.newRoot
  if options.library || options.selfTest then Library.load depth root
  return root

namespace Request

/-- Do what was asked for, given the lines of the input. Where the library cannot be loaded, that is
reported, whatever the error is. -/
def execute (depth : Nat) (files : Files) (lines : List String) : Request → Eval Exit
  | .help => do
    Eval.write helpText
    return {}
  | .version => do
    Eval.write versionText
    return {}
  | .misuse found =>
    return { status := 2, errors := found.text ++ "\n" }
  | .run options => do
    match ← Eval.attempt (options.openRoot depth) with
    | .error e => return .report e
    | .ok root =>
      if options.readsInput then return { errors := ← repl depth root "" lines }
      else if options.selfTest then runChecks depth root
      else runInputs depth files root options.inputs

end Request

end AtomLisp
