import AtomLisp.Builtin.Call
import AtomLisp.Form

/-!
# Evaluation

A program need not end, so evaluation is given the number of levels to which it may nest; where it
nests deeper, it stops with `Stop.tooDeep`. One level is `evalStep`, which leaves the evaluation of
every part to a function that it is given. `eval`, `evalSequence` and `apply` put the levels
together.

Evaluation is written for any kind of computation that has its steps. Programs are run as
computations in a session; other kinds keep an account of what is done as well, and what they do is
related to evaluation step by step.
-/

namespace AtomLisp

/-- A kind of computation that has the steps of evaluation. The steps that change the store may be
accounted for in ways of their own. -/
class Steps (m : Type → Type) where
  /-- Carry out a step in which no expression is evaluated. -/
  step {α : Type} : Eval α → m α
  /-- Carry out a computation as part of the application `form`. -/
  within (form : Value) : m Value → m Value
  makeClosure (params : List String) (body : List Value) (s : ScopeId) : m Value :=
    step (Eval.makeClosure params body s)
  define (s : ScopeId) (name : String) (v : Value) : m Value :=
    step (Eval.define s name v)
  extend (s : ScopeId) (bindings : List (String × Value)) : m ScopeId :=
    step (Eval.extend s bindings)

instance : Steps Eval where
  step act := act
  within := Eval.within

namespace Steps

@[simp]
theorem step_eq {α : Type} (act : Eval α) : step act = act := rfl

@[simp]
theorem within_eq (form : Value) (act : Eval Value) : within form act = Eval.within form act := rfl

@[simp]
theorem makeClosure_eq (params : List String) (body : List Value) (s : ScopeId) :
    makeClosure params body s = Eval.makeClosure params body s := rfl

@[simp]
theorem define_eq (s : ScopeId) (name : String) (v : Value) :
    define s name v = Eval.define s name v := rfl

@[simp]
theorem extend_eq (s : ScopeId) (bindings : List (String × Value)) :
    extend s bindings = Eval.extend s bindings := rfl

end Steps

/-- Evaluates an expression in a scope. -/
abbrev Evaluator (m : Type → Type) := Value → ScopeId → m Value

variable {m : Type → Type} [Monad m] [Steps m]

namespace Evaluator

variable (ev : Evaluator m)

/-- Evaluate expressions in order. The value is that of the last one, and the empty list if there
are none. -/
@[specialize]
def sequence (exprs : List Value) (s : ScopeId) : m Value :=
  exprs.foldlM (fun _ expr => ev expr s) .nil

/-- Apply a closure: its body is evaluated in a new scope, inside the one it captured, where its
parameters are bound to the arguments. -/
@[specialize]
def applyClosure (head : ClosureHead) (body args : List Value) : m Value := do
  if head.params.length = args.length then
    Steps.step (Eval.emit (.applyClosure head.name args.length))
    let s ← Steps.extend head.scope (head.params.zip args)
    ev.sequence body s
  else
    Steps.step (Eval.raise (.closureArity head args.length))

/-- Apply a procedure to arguments. -/
@[specialize]
def apply (procedure : Value) (args : List Value) : m Value :=
  match procedure with
  | .builtin op => Steps.step (op.call args)
  | .closure head body => ev.applyClosure head body args
  | x => Steps.step (Eval.raise (.notProcedure x))

/-- Evaluate the operator, then the operands from left to right, then apply. -/
@[specialize]
def application (items : List Value) (s : ScopeId) : m Value :=
  match items with
  | [] => Steps.step (Eval.raise (.notProcedure .nil))
  | operator :: operands => do
    let procedure ← ev operator s
    let args ← operands.mapM fun operand => ev operand s
    ev.apply procedure args

/-- Evaluate a form. -/
@[specialize]
def form (s : ScopeId) : Form → m Value
  | .lambda params body => Steps.makeClosure params body s
  | .defineProcedure name params body => do
    let closure ← Steps.makeClosure params body s
    Steps.define s name closure
  | .defineValue name expr => do
    let v ← ev expr s
    Steps.define s name v
  | .branch predicate consequent alternative => do
    let v ← ev predicate s
    if ← Steps.step (Eval.ofExcept v.truthiness) then ev consequent s
    else match alternative with
      | some expr => ev expr s
      | none => return .nil
  | .quote datum => return datum
  | .expand expr => ev expr s
  | .sequence exprs => ev.sequence exprs s
  | .application items => Steps.within (.list items) (ev.application items s)

end Evaluator

/-- One level of evaluation: an atom is looked up, a list is a form, and a procedure is its own
value. The parts of a form are left to `ev`. -/
@[specialize]
def evalStep (ev : Evaluator m) : Evaluator m := fun expr s =>
  match expr with
  | .atom name => Steps.step (Eval.lookup s name)
  | .list items => do
    let form ← Steps.step (Eval.ofExcept (Form.ofItems items))
    ev.form s form
  | .builtin op => return .builtin op
  | .closure head body => return .closure head body

/-- Evaluation nested to at most `depth` levels. -/
@[specialize]
def Evaluator.nested (depth : Nat) : Evaluator m :=
  match depth with
  | 0 => fun _ _ => Steps.step (throw .tooDeep)
  | depth + 1 => evalStep (nested depth)

/-- The value of an expression in a scope, with evaluation nested to at most `depth` levels. -/
def eval (depth : Nat) : Evaluator Eval :=
  .nested depth

/-- Without any depth left, evaluation stops before it looks at the expression. -/
theorem eval_zero : eval 0 = fun _ _ => throw .tooDeep := rfl

/-- Each level of nesting is one step of the evaluator over the levels below it. -/
theorem eval_succ (depth : Nat) : eval (depth + 1) = evalStep (eval depth) := rfl

/-- A list that is a form is evaluated as this form, one level below. -/
theorem eval_list_of_form {items : List Value} {form : Form} (h : Form.ofItems items = .ok form)
    (depth : Nat) (s : ScopeId) :
    eval (depth + 1) (.list items) s = (eval depth).form s form := by
  simp only [eval_succ, evalStep, h]
  rfl

/-- A list that is refused as a form is not evaluated at all. -/
theorem eval_list_of_fault {items : List Value} {fault : Fault}
    (h : Form.ofItems items = .error fault) (depth : Nat) (s : ScopeId) :
    eval (depth + 1) (.list items) s = Eval.raise fault := by
  simp only [eval_succ, evalStep, h]
  rfl

/-- The value of the last of several expressions, evaluated in order. -/
def evalSequence (depth : Nat) (exprs : List Value) (s : ScopeId) : Eval Value :=
  (eval depth).sequence exprs s

/-- The value of a procedure for the given arguments, which are not evaluated again. -/
def apply (depth : Nat) (procedure : Value) (args : List Value) : Eval Value :=
  (eval depth).apply procedure args

end AtomLisp
