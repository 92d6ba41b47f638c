import AtomLisp.Program
import AtomLisp.Proofs.StepsInOrder

/-!
# What all evaluation has in common

Evaluation is made of few steps, which are named once here. If each of them is related to the same
step of another kind of computation, and the relation passes to steps in order, then evaluation is
related to evaluation of the other kind: of every expression, to every depth, in every scope. A
property of computations is a relation that looks at one of them only, so a property that each
single step of evaluation has is pervasive.
-/

namespace AtomLisp

/-! ### What is refused as a form -/

namespace Form

open Fault (FailsFor)

/-- Parameters are refused as part of a malformed form. -/
theorem failsFor_paramNames (params : List Value) :
    FailsFor (fun reason => reason.kind = .malformed) (paramNames params) := by
  induction params with
  | nil => exact .ok []
  | cons param params ih =>
    rw [paramNames, List.mapM_cons]
    refine .bind ?_ fun name => .bind ih fun names => .ok (name :: names)
    cases param with
    | atom name => exact .ok name
    | _ => exact .error rfl

/-- Clauses are refused as part of a malformed form. -/
theorem failsFor_ofCond (clauses : List Value) :
    FailsFor (fun reason => reason.kind = .malformed) (ofCond clauses) := by
  induction clauses with
  | nil => exact .ok _
  | cons clause clauses ih =>
    match clause with
    | .list (predicate :: actions) =>
      rw [ofCond]
      split
      · exact .ok _
      · exact .bind ih fun alternative => .ok _
    | .list [] => exact .error rfl
    | .atom _ => exact .error rfl
    | .builtin _ => exact .error rfl
    | .closure _ _ => exact .error rfl

/-- What is refused as a form has not the shape of its keyword. -/
theorem failsFor_ofItems (items : List Value) :
    FailsFor (fun reason => reason.kind = .malformed) (ofItems items) := by
  rw [ofItems]
  split
  · next keyword _ =>
    cases keyword <;> simp only [ofOperands]
    · split
      · exact .bind (failsFor_paramNames _) fun names => .ok _
      · exact .error rfl
    · split
      · exact .bind (failsFor_paramNames _) fun names => .ok _
      · exact .error rfl
      · exact .ok _
      · exact .error rfl
    · split
      · exact .ok _
      · exact .ok _
      · exact .error rfl
    · split <;> exact .ok _
    · exact .bind (failsFor_ofCond _) fun expr => .ok _
    · exact .ok _
  · exact .ok _

end Form

/-! ### Evaluation of two kinds -/

/-- Steps that only have a value are what a computation does that has this value. -/
class LawfulSteps (m : Type → Type) [Monad m] [Steps m] : Prop extends LawfulMonad m where
  step_pure {α : Type} (a : α) : (Steps.step (Pure.pure a : Eval α) : m α) = Pure.pure a

instance : LawfulSteps Eval where
  step_pure _ := rfl

section Relation

variable {m n : Type → Type} [Monad m] [Steps m] [Monad n] [Steps n]

/-- Every single step of evaluation is related to the same step of another kind, and the relation
passes to steps in order. The two faults that a program itself asks for are raised by builtin
operations, so they are not considered on their own. -/
structure Steps.Respect (R : ∀ {α : Type}, m α → n α → Prop) : Prop
    extends Sequential (m := m) (n := n) R where
  raise {α : Type} {reason : Fault} : reason.kind ≠ .user → reason.kind ≠ .quit →
    R (step (Eval.raise reason : Eval α)) (step (Eval.raise reason))
  tooDeep : R (step (throw .tooDeep : Eval Value)) (step (throw .tooDeep))
  within {form : Value} {act : m Value} {act' : n Value} : R act act' →
    R (Steps.within form act) (Steps.within form act')
  enter (name : Option String) (count : Nat) :
    R (step (Eval.emit (.applyClosure name count))) (step (Eval.emit (.applyClosure name count)))
  lookup (s : ScopeId) (name : String) :
    R (step (Eval.lookup s name)) (step (Eval.lookup s name))
  define (s : ScopeId) (name : String) (v : Value) :
    R (Steps.define s name v) (Steps.define s name v)
  extend (s : ScopeId) (bindings : List (String × Value)) :
    R (Steps.extend s bindings) (Steps.extend s bindings)
  makeClosure (params : List String) (body : List Value) (s : ScopeId) :
    R (Steps.makeClosure params body s) (Steps.makeClosure params body s)
  call (op : Builtin) (args : List Value) : R (step (op.call args)) (step (op.call args))

end Relation

namespace Steps.Respect

variable {m n : Type → Type} [Monad m] [Steps m] [Monad n] [Steps n]
  {R : ∀ {α : Type}, m α → n α → Prop} (hR : Respect (m := m) (n := n) R)
include hR

variable {ev : Evaluator m} {ev' : Evaluator n} (hev : ∀ x s, R (ev x s) (ev' x s))
include hev

/-- Sequences are related if the evaluators are. -/
theorem sequence (exprs : List Value) (s : ScopeId) :
    R (ev.sequence exprs s) (ev'.sequence exprs s) :=
  hR.foldlM _ _ (fun x _ _ => hev x s) .nil

/-- Applying the same procedure is related if the evaluators are. -/
theorem apply (procedure : Value) (args : List Value) :
    R (ev.apply procedure args) (ev'.apply procedure args) := by
  cases procedure with
  | atom text => exact hR.raise (by simp [Fault.kind]) (by simp [Fault.kind])
  | list items => exact hR.raise (by simp [Fault.kind]) (by simp [Fault.kind])
  | builtin op => exact hR.call op args
  | closure head body =>
    simp only [Evaluator.apply, Evaluator.applyClosure]
    by_cases hlength : head.params.length = args.length
    · simp only [if_pos hlength]
      refine hR.bind (hR.enter _ _) fun _ => hR.bind (hR.extend head.scope _) fun s => ?_
      exact sequence hR hev body s
    · simp only [if_neg hlength]
      exact hR.raise (by simp [Fault.kind]) (by simp [Fault.kind])

variable [LawfulSteps m] [LawfulSteps n]

omit hev in
/-- A check is a step that has a value or fails. -/
theorem ofExcept {α : Type} {checked : Except Fault α}
    (h : ∀ reason, checked = .error reason → reason.kind ≠ .user ∧ reason.kind ≠ .quit) :
    R (step (Eval.ofExcept checked)) (step (Eval.ofExcept checked)) := by
  cases checked with
  | ok a =>
    rw [Eval.ofExcept, LawfulSteps.step_pure, LawfulSteps.step_pure]
    exact hR.pure a
  | error reason => exact hR.raise (h reason rfl).1 (h reason rfl).2

/-- Applications of the same items are related if the evaluators are. -/
theorem application (items : List Value) (s : ScopeId) :
    R (ev.application items s) (ev'.application items s) := by
  cases items with
  | nil => exact hR.raise (by simp [Fault.kind]) (by simp [Fault.kind])
  | cons operator operands =>
    exact hR.bind (hev operator s) fun procedure =>
      hR.bind (hR.mapM _ _ fun operand _ => hev operand s) fun args =>
        apply hR hev procedure args

/-- Evaluating the same form is related if the evaluators are. -/
theorem form (s : ScopeId) (form : Form) : R (ev.form s form) (ev'.form s form) := by
  cases form with
  | lambda params body => exact hR.makeClosure params body s
  | defineProcedure name params body =>
    exact hR.bind (hR.makeClosure params body s) fun closure => hR.define s name closure
  | defineValue name expr => exact hR.bind (hev expr s) fun v => hR.define s name v
  | branch predicate consequent alternative =>
    refine hR.bind (hev predicate s) fun v => hR.bind (hR.ofExcept fun reason hreason => ?_)
      fun b => ?_
    · have hblames := Fault.FailsFor.truthiness v reason hreason
      exact ⟨hblames.kind_ne (by decide), hblames.kind_ne (by decide)⟩
    · cases b with
      | true => exact hev consequent s
      | false =>
        cases alternative with
        | none => exact hR.pure _
        | some expr => exact hev expr s
  | quote datum => exact hR.pure datum
  | expand expr => exact hev expr s
  | sequence exprs => exact sequence hR hev exprs s
  | application items => exact hR.within (application hR hev items s)

theorem evalStep (x : Value) (s : ScopeId) : R (evalStep ev x s) (evalStep ev' x s) := by
  cases x with
  | atom name => exact hR.lookup s name
  | list items =>
    refine hR.bind (hR.ofExcept fun reason hreason => ?_) fun form => hR.form hev s form
    rw [Form.failsFor_ofItems items reason hreason]
    exact ⟨by decide, by decide⟩
  | builtin op => exact hR.pure _
  | closure head body => exact hR.pure _

omit hev in
/-- Evaluation of the one kind is related to evaluation of the other kind. -/
theorem nested (depth : Nat) (x : Value) (s : ScopeId) :
    R (Evaluator.nested depth x s) (Evaluator.nested depth x s) := by
  induction depth generalizing x s with
  | zero => exact hR.tooDeep
  | succ depth ih => exact hR.evalStep ih x s

omit hev in
/-- Programs are related as well if it is related to note a form. -/
theorem program (hnote : ∀ form, R (step (Eval.emit (.topLevelForm form)))
      (step (Eval.emit (.topLevelForm form)))) (depth : Nat) (forms : List Value) (s : ScopeId) :
    R ((Evaluator.nested depth).program forms s) ((Evaluator.nested depth).program forms s) := by
  refine hR.foldlM _ _ (fun form _ _ => ?_) Value.nil
  exact hR.bind (hnote form.short) fun _ => hR.nested depth form s

end Steps.Respect

/-! ### Pervasive properties -/

namespace Eval

/-- Every single step of evaluation has the property, and it passes to steps in order. -/
abbrev Pervasive (P : ∀ {α : Type}, Eval α → Prop) : Prop :=
  Steps.Respect (m := Eval) (n := Eval) fun act _ => P act

namespace Pervasive

variable {P : ∀ {α : Type}, Eval α → Prop} (hP : Pervasive P)
include hP

/-- Evaluation has every pervasive property. -/
theorem eval (depth : Nat) (x : Value) (s : ScopeId) : P (AtomLisp.eval depth x s) :=
  hP.nested depth x s

/-- Programs have it too if to note a form has. -/
theorem runForms (hnote : ∀ form, P (Eval.emit (.topLevelForm form))) (depth : Nat)
    (forms : List Value) (s : ScopeId) : P (AtomLisp.runForms depth forms s) :=
  hP.program hnote depth forms s

end Pervasive

end Eval

end AtomLisp
