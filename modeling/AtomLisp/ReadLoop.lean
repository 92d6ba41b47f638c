import AtomLisp.Program

/-!
# The read loop

Lines are read until every opened parenthesis is closed; the source they make up is run, and its
value displayed. The loop takes one line at a time, and what it does about a line is said apart from
where the lines come from.
-/

namespace AtomLisp

/-- What the user is asked with before a line, given the source typed in so far. -/
def prompt (source : String) : String :=
  if source.isEmpty then ">> " else ".. "

/-- The lines of a text. What follows the last line end is a line if it is not empty. -/
def linesOf (text : String) : List String :=
  let pieces := text.splitOn "\n"
  if pieces.getLast? = some "" then pieces.dropLast else pieces

/-- The outcome of asking for a source: the prompts shown meanwhile, and the source with the lines
that are left, or the end of the input. -/
inductive Reading where
  | source (text : String) (prompts : String) (rest : List String)
  | ended (prompts : String)
deriving DecidableEq, Repr

/-- Read on, given the source and the prompts so far, until as many parentheses are closed as were
opened. -/
def readOn (source prompts : String) : List String → Reading
  | [] => .ended (prompts ++ prompt source)
  | line :: lines =>
    let next := source ++ line ++ "\n"
    if isBalanced next then .source next (prompts ++ prompt source) lines
    else readOn next (prompts ++ prompt source) lines

/-- Read the next source from lines that are given without their line ends. -/
def readBalanced (lines : List String) : Reading :=
  readOn "" "" lines

/-- The text that displays the value of a source. -/
def displayed (source : String) : String :=
  "(display " ++ source ++ ")"

/-- What the loop does next. -/
inductive Turn where
  /-- It reads on, with what has been typed in so far of a source, after a report. -/
  | readOn (source report : String)
  | quit
deriving DecidableEq, Repr

/-- Run a source in scope `s` and display its value. A source of blanks only is not run. -/
def respond (depth : Nat) (s : ScopeId) (source : String) : Eval Turn := do
  if source.toList.all Text.isBlank then return .readOn "" ""
  match ← Eval.attempt (run depth (displayed source) s) with
  | .ok _ => return .readOn "" ""
  | .error e => return if e.isQuit then .quit else .readOn "" (e.text ++ "\n")

/-- Take in a line, given what has been typed in before it of the same source. -/
def takeLine (depth : Nat) (s : ScopeId) (source line : String) : Eval Turn :=
  let next := source ++ line ++ "\n"
  if isBalanced next then respond depth s next else return .readOn next ""

/-- Read sources from the lines and run each in scope `s`, whatever became of those before it,
until the input ends or the program asks to end. `source` is what has been typed in so far. The
prompts are part of the output; the reports of all errors are the outcome. -/
def repl (depth : Nat) (s : ScopeId) (source : String) : List String → Eval String
  | [] => do
    Eval.write (prompt source)
    return ""
  | line :: lines => do
    Eval.write (prompt source)
    match ← takeLine depth s source line with
    | .readOn next report => return report ++ (← repl depth s next lines)
    | .quit => return ""

end AtomLisp
