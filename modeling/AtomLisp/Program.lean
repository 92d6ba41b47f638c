import AtomLisp.Eval
import AtomLisp.Reader

/-!
# Running programs

A program is a text whose forms are evaluated in order, each to its end before the next one.
-/

namespace AtomLisp

/-- Evaluate forms in order, noting each before it is evaluated. The value is that of the last
one, and the empty list if there are none; the first error ends the program. -/
@[specialize]
def Evaluator.program {m : Type → Type} [Monad m] [Steps m] (ev : Evaluator m)
    (forms : List Value) (s : ScopeId) : m Value :=
  forms.foldlM (fun _ form => do
    Steps.step (Eval.emit (.topLevelForm form.short))
    ev form s) .nil

/-- Evaluate the forms of a program in order, each to at most `depth` levels. -/
def runForms (depth : Nat) (forms : List Value) (s : ScopeId) : Eval Value :=
  (eval depth).program forms s

/-- Read a text and evaluate its forms in scope `s`. -/
def run (depth : Nat) (source : String) (s : ScopeId) : Eval Value :=
  runForms depth (read source) s

/-! ### Files -/

/-- What is found where a file exists: its bytes, or the reason why they cannot be read. -/
inductive File where
  | readable (bytes : ByteArray)
  | unreadable (reason : String)

/-- A file of which the bytes are known can be read. -/
instance : Coe ByteArray File := ⟨.readable⟩

/-- The text of a file; `none` stands for a file that does not exist. -/
def fileText : Option File → Except Fault String
  | none => .error .fileNotFound
  | some (.unreadable reason) => .error (.unreadable reason)
  | some (.readable bytes) =>
    match String.fromUTF8? bytes with
    | some text => .ok text
    | none => .error .invalidEncoding

/-- Run the text of a file in scope `s`. -/
def runFile (depth : Nat) (file : Option File) (s : ScopeId) : Eval Value := do
  let source ← Eval.ofExcept (fileText file)
  run depth source s

end AtomLisp
