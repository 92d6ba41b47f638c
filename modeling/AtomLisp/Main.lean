import AtomLisp.CommandLine

/-!
# The program

Connects the interpreter to the terminal and to the file system. Lines are taken in as they are
read, and a file is looked at when it is the turn of the input that names it.
-/

namespace AtomLisp

namespace Main

/-- How deep evaluation may nest. -/
def depthLimit : Nat := 1000000

/-- Write the output of a session, and return the session without it. -/
def flush (session : Session) : IO Session := do
  let stdout ← IO.getStdout
  stdout.putStr session.output
  stdout.flush
  return { session with output := "", events := #[] }

/-- Write what a computation has left behind, and return the status of the program. -/
def finish : EStateM.Result Stop Session Exit → IO UInt32
  | .ok exit session => do
    let _ ← flush session
    IO.eprint exit.errors
    return UInt32.ofNat exit.status
  | .error _ session => do
    let _ ← flush session
    IO.eprint "evaluation is nested too deep\n"
    return 1

/-- Read lines from the terminal and take them in, until the input ends or the program asks to end.
This is the read loop for lines that are typed in one by one. -/
partial def converse (root : ScopeId) (source : String) (session : Session) : IO UInt32 := do
  let session ← flush { session with output := prompt source }
  match linesOf (← (← IO.getStdin).getLine) with
  | [] => return 0
  | line :: _ =>
    match takeLine depthLimit root source line session with
    | .ok (.readOn next report) session => do
      let session ← flush session
      IO.eprint report
      converse root next session
    | .ok .quit session => finish (.ok {} session)
    | .error stop session => finish (.error stop session)

/-- Why a file cannot be read. -/
def reasonFor : IO.Error → String
  | .permissionDenied _ code details => details ++ " (os error " ++ toString code ++ ")"
  | other => toString other

/-- The file of this name, if there is one. A directory is none. -/
def file? (name : String) : IO (Option File) := do
  if let .error _ ← (IO.FS.realPath name).toBaseIO then return none
  match ← (IO.FS.readBinFile name).toBaseIO with
  | .ok bytes => return some (.readable bytes)
  | .error (.inappropriateType ..) => return none
  | .error e => return some (.unreadable (reasonFor e))

/-- Run inputs in order, up to the first one that fails. -/
def runAll (root : ScopeId) (session : Session) : List String → IO UInt32
  | [] => finish (.ok {} session)
  | input :: inputs => do
    match takeInput depthLimit (← file? input) root input session with
    | .ok none session => runAll root (← flush session) inputs
    | .ok (some exit) session => finish (.ok exit session)
    | .error stop session => finish (.error stop session)

/-- Do what was asked for. -/
def perform : Request → IO UInt32
  | .run options => do
    match Eval.attempt (options.openRoot depthLimit) {} with
    | .ok (.ok root) session =>
      if options.readsInput then converse root "" session
      else if options.selfTest then finish (runChecks depthLimit root session)
      else runAll root session options.inputs
    | .ok (.error e) session => finish (.ok (.report e) session)
    | .error stop session => finish (.error stop session)
  | request => finish (request.execute depthLimit (fun _ => none) [] {})

end Main

end AtomLisp

/-- Run the program with the given arguments. -/
def main (arguments : List String) : IO UInt32 :=
  AtomLisp.Main.perform (AtomLisp.Request.ofArguments arguments)
