import AtomLisp.Fault

/-!
# Errors

A fault together with the applications that were under way when it arose. An error takes on its
context on the way out, from one application at a time, and is reported the other way round.
-/

namespace AtomLisp

/-- A fault and the application forms under way when it arose, the innermost first. -/
structure Error where
  fault : Fault
  context : List Value := []

namespace Error

/-- The error as seen from outside the application `form`. -/
def within (form : Value) (error : Error) : Error :=
  { error with context := error.context ++ [form] }

/-- Was the program asked to end? -/
def isQuit (error : Error) : Bool :=
  error.fault.kind = .quit

/-- Only the request to end the program counts as one. -/
theorem isQuit_iff {error : Error} : error.isQuit = true ↔ error.fault.kind = .quit :=
  decide_eq_true_iff

/-- A context form on one line: more than 75 characters are cut to the first 70. -/
def contextLine (form : Value) : String :=
  let text := form.short
  if 75 < text.length then String.ofList (text.toList.take 70) ++ " ..." else text

/-- The report: the applications under way, the outermost first, each on a line of its own, and
then the message of the fault. Without any application there is the message only. -/
def text (error : Error) : String :=
  let lines := error.context.reverse.map fun form => "    " ++ contextLine form ++ "\n"
  let heading := if error.context.isEmpty then "" else "Context:\n"
  heading ++ String.join lines ++ error.fault.message

/-- The application around a failing one is the next line of its context. -/
@[simp] theorem context_within (form : Value) (error : Error) :
    (error.within form).context = error.context ++ [form] := rfl

end Error

end AtomLisp
