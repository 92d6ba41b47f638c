import AtomLisp.Library
import AtomLisp.Proofs.FormParts
import AtomLisp.Proofs.Preservation

/-!
# The frame of evaluation

Evaluating an expression in a scope can bind names in that very scope, and in scopes that did not
exist before. All other scopes stay as they are, however evaluation ends (`eval_touchedOnlyAt`). An
application changes no scope that existed before it, and an expression that does not mention
`define` leaves its own scope alone as well (`eval_untouched`). `frame_of_evaluation` puts these
together for expressions, sequences, programs and applications.
-/

namespace AtomLisp

namespace Store

/-- Every scope that exists in the first store is exactly the same in the second one. -/
structure Untouched (st st' : Store) : Prop where
  nextScope_le : st.nextScope ≤ st'.nextScope
  scopes_eq (t : ScopeId) (ht : t < st.nextScope) : st'.scopes[t]? = st.scopes[t]?

/-- Every scope of the first store other than `e` is exactly the same in the second one. The scope
`e` still has the parent it had, and binds every name that it bound. -/
structure TouchedOnlyAt (e : ScopeId) (st st' : Store) : Prop where
  nextScope_le : st.nextScope ≤ st'.nextScope
  scopes_eq (t : ScopeId) (ht : t < st.nextScope) (hne : t ≠ e) : st'.scopes[t]? = st.scopes[t]?
  parent_eq (he : e < st.nextScope) : st'.parent? e = st.parent? e
  isBound (name : String) (h : st.isBound e name = true) : st'.isBound e name = true

namespace Untouched

theorem refl (st : Store) : Untouched st st :=
  ⟨Nat.le_refl _, fun _ _ => rfl⟩

theorem trans (st₁ st₂ st₃ : Store) (h₁ : Untouched st₁ st₂)
    (h₂ : Untouched st₂ st₃) : Untouched st₁ st₃ := by
  refine ⟨Nat.le_trans h₁.nextScope_le h₂.nextScope_le, fun t ht => ?_⟩
  rw [h₂.scopes_eq t (Nat.lt_of_lt_of_le ht h₁.nextScope_le), h₁.scopes_eq t ht]

theorem countClosure (st : Store) : Untouched st st.countClosure :=
  ⟨Nat.le_refl _, fun _ _ => rfl⟩

theorem extend (st : Store) (s : ScopeId) (bindings : List (String × Value)) :
    Untouched st (st.extend s bindings) := by
  refine ⟨?_, fun t ht => scopes_extend_of_lt st bindings ht⟩
  rw [nextScope_extend]
  exact Nat.le_succ _

/-- A scope that is not touched keeps its parent. -/
theorem parent?_eq {st st' : Store} (h : Untouched st st') {s : ScopeId} (hs : s < st.nextScope) :
    st'.parent? s = st.parent? s := by
  rw [parent?, h.scopes_eq s hs, parent?]

/-- A scope that is not touched keeps its bindings. -/
theorem binding?_eq {st st' : Store} (h : Untouched st st') {s : ScopeId} (hs : s < st.nextScope)
    (name : String) : st'.binding? s name = st.binding? s name := by
  rw [binding?, h.scopes_eq s hs, binding?]

theorem isLive_eq {st st' : Store} (h : Untouched st st') {s : ScopeId} (hs : s < st.nextScope) :
    st'.isLive s = st.isLive s := by
  rw [isLive, h.scopes_eq s hs, isLive]

/-- Where no scope is touched, at most one is. -/
theorem touchedOnlyAt {st st' : Store} (h : Untouched st st') (e : ScopeId) :
    TouchedOnlyAt e st st' := by
  refine ⟨h.nextScope_le, fun t ht _ => h.scopes_eq t ht, h.parent?_eq, fun name hbound => ?_⟩
  obtain ⟨b, hb⟩ := (isBound_iff st e name).1 hbound
  rw [isBound, h.binding?_eq (lt_of_binding? hb)]
  exact hbound

end Untouched

namespace TouchedOnlyAt

variable {e : ScopeId}

theorem refl (st : Store) : TouchedOnlyAt e st st :=
  (Untouched.refl st).touchedOnlyAt e

theorem trans (st₁ st₂ st₃ : Store) (h₁ : TouchedOnlyAt e st₁ st₂)
    (h₂ : TouchedOnlyAt e st₂ st₃) : TouchedOnlyAt e st₁ st₃ where
  nextScope_le := Nat.le_trans h₁.nextScope_le h₂.nextScope_le
  scopes_eq t ht hne := by
    rw [h₂.scopes_eq t (Nat.lt_of_lt_of_le ht h₁.nextScope_le) hne, h₁.scopes_eq t ht hne]
  parent_eq he := by
    rw [h₂.parent_eq (Nat.lt_of_lt_of_le he h₁.nextScope_le), h₁.parent_eq he]
  isBound name h := h₂.isBound name (h₁.isBound name h)

theorem define (st : Store) (name : String) (v : Value) :
    TouchedOnlyAt e st (st.define e name v) where
  nextScope_le := Nat.le_of_eq (nextScope_define ..).symm
  scopes_eq t _ hne := scopes_define_of_ne st name v hne
  parent_eq _ := parent?_define ..
  isBound key h := by
    rw [Store.isBound, binding?_define]
    split
    · rfl
    · exact h

/-- What is touched only at a new scope is untouched for those who were there before it. -/
theorem untouched_extend {st st' : Store} {s : ScopeId} {bindings : List (String × Value)}
    (h : TouchedOnlyAt st.nextScope (st.extend s bindings) st') : Untouched st st' := by
  have hle := h.nextScope_le
  rw [nextScope_extend] at hle
  refine ⟨Nat.le_of_succ_le hle, fun t ht => ?_⟩
  have hlt : t < (st.extend s bindings).nextScope := by
    rw [nextScope_extend]
    exact Nat.lt_succ_of_lt ht
  rw [h.scopes_eq t hlt (Nat.ne_of_lt ht), scopes_extend_of_lt st bindings ht]

end TouchedOnlyAt

end Store

open Store Eval

namespace Evaluator

variable {ev : Evaluator Eval} {R : Store → Store → Prop} (hrefl : ∀ st, R st st)
  (htrans : ∀ st₁ st₂ st₃, R st₁ st₂ → R st₂ st₃ → R st₁ st₃)

include hrefl htrans in
theorem keeps_sequence {exprs : List Value} {s : ScopeId} (h : ∀ x ∈ exprs, (ev x s).Keeps R) :
    (ev.sequence exprs s).Keeps R :=
  (Keeps.stepwise hrefl htrans).foldlM (fun x hx _ => h x hx) .nil

/-- The body of a closure is evaluated in a new scope, so an application touches no scope that was
there before. -/
theorem keeps_apply (h : ∀ x s, (ev x s).Keeps (TouchedOnlyAt s)) (procedure : Value)
    (args : List Value) : (ev.apply procedure args).Keeps Untouched := by
  cases procedure with
  | atom text => exact Keeps.raise Untouched.refl _
  | list items => exact Keeps.raise Untouched.refl _
  | builtin op => exact (Keeps.stepwise Untouched.refl Untouched.trans).call op args
  | closure head body =>
    rw [apply, applyClosure]
    split
    · -- the scope that the body may touch is one that did not exist before
      refine Keeps.bind Untouched.trans (Keeps.emit Untouched.refl _) fun _ session => ?_
      have hbody := keeps_sequence (s := session.store.nextScope) TouchedOnlyAt.refl
        TouchedOnlyAt.trans fun x (_ : x ∈ body) => h x session.store.nextScope
      exact (hbody { session with
        store := session.store.extend head.scope (head.params.zip args) }).untouched_extend
    · exact Keeps.raise Untouched.refl _

include hrefl htrans in
/-- An application keeps what its items keep, if calling what they yield does. -/
theorem keeps_application {items : List Value} {s : ScopeId}
    (h : ∀ x ∈ items, (ev x s).Keeps R)
    (happly : ∀ procedure args, (ev.apply procedure args).Keeps R) :
    (ev.application items s).Keeps R := by
  cases items with
  | nil => exact Keeps.raise hrefl _
  | cons operator operands =>
    have hoperator := h operator List.mem_cons_self
    have hoperands := (Keeps.stepwise hrefl htrans).mapM fun x hx =>
      h x (List.mem_cons_of_mem operator hx)
    exact Keeps.bind htrans hoperator fun procedure =>
      Keeps.bind htrans hoperands fun args => happly procedure args

include hrefl htrans in
/-- A form keeps what its parts and applications keep. If it is a definition, the relation must
allow one more binding. -/
theorem keeps_form {form : Form} {s : ScopeId} (h : ∀ x ∈ form.parts, (ev x s).Keeps R)
    (happly : ∀ procedure args, (ev.apply procedure args).Keeps R)
    (hclosure : ∀ st, R st st.countClosure)
    (hdefine : form.IsDefinition → ∀ st name v, R st (st.define s name v)) :
    (ev.form s form).Keeps R := by
  cases form with
  | lambda params body => exact Keeps.makeClosure hclosure params body s
  | defineProcedure name params body =>
    exact Keeps.bind htrans (Keeps.makeClosure hclosure params body s) fun closure =>
      Keeps.define fun st => hdefine trivial st name closure
  | defineValue name expr =>
    exact Keeps.bind htrans (h expr List.mem_cons_self) fun v =>
      Keeps.define fun st => hdefine trivial st name v
  | branch predicate consequent alternative =>
    have hpredicate := h predicate List.mem_cons_self
    have hconsequent := h consequent (List.mem_cons_of_mem _ List.mem_cons_self)
    refine Keeps.bind htrans hpredicate fun v => ?_
    refine Keeps.bind htrans ((Keeps.stepwise hrefl htrans).ofExcept _) fun b => ?_
    cases b with
    | true => exact hconsequent
    | false =>
      cases alternative with
      | none => exact Keeps.pure hrefl _
      | some expr => exact h expr (by simp [Form.parts])
  | quote datum => exact Keeps.pure hrefl datum
  | expand expr => exact h expr List.mem_cons_self
  | sequence exprs => exact keeps_sequence hrefl htrans h
  | application items =>
    exact Keeps.within (keeps_application hrefl htrans h happly)

include hrefl htrans in
/-- One level of evaluation in a scope keeps what all evaluation in that scope keeps, if it allows
for one more closure and one more binding there. -/
theorem keeps_evalStep {s : ScopeId} (h : ∀ x, (ev x s).Keeps R)
    (happly : ∀ procedure args, (ev.apply procedure args).Keeps R)
    (hclosure : ∀ st, R st st.countClosure) (hdefine : ∀ st name v, R st (st.define s name v))
    (x : Value) : (evalStep ev x s).Keeps R := by
  cases x with
  | atom name => exact Keeps.lookup hrefl s name
  | list items =>
    refine Keeps.bind htrans ((Keeps.stepwise hrefl htrans).ofExcept _) fun form => ?_
    exact keeps_form hrefl htrans (fun x _ => h x) happly hclosure fun _ => hdefine
  | builtin op => exact Keeps.pure hrefl _
  | closure head body => exact Keeps.pure hrefl _

end Evaluator

/-- Evaluation in a scope touches no other scope. -/
theorem eval_touchedOnlyAt (depth : Nat) (x : Value) (s : ScopeId) :
    (eval depth x s).Keeps (TouchedOnlyAt s) := by
  induction depth generalizing x s with
  | zero => exact Keeps.tooDeep TouchedOnlyAt.refl
  | succ depth ih =>
    have happly : ∀ procedure args,
        (Evaluator.apply (eval depth) procedure args).Keeps (TouchedOnlyAt s) :=
      fun procedure args => (Evaluator.keeps_apply ih procedure args).mono
        fun st st' h => h.touchedOnlyAt s
    exact Evaluator.keeps_evalStep TouchedOnlyAt.refl TouchedOnlyAt.trans (fun x => ih x s) happly
      (fun st => (Untouched.countClosure st).touchedOnlyAt s) TouchedOnlyAt.define x

/-- An application touches no scope that was there before. -/
theorem apply_untouched (depth : Nat) (procedure : Value) (args : List Value) :
    (apply depth procedure args).Keeps Untouched :=
  Evaluator.keeps_apply (eval_touchedOnlyAt depth) procedure args

/-- Evaluation in a scope keeps every relation that allows for new scopes and closures, and for one
more binding in that scope. -/
theorem eval_keeps {R : Store → Store → Prop}
    (htrans : ∀ st₁ st₂ st₃, R st₁ st₂ → R st₂ st₃ → R st₁ st₃)
    (huntouched : ∀ st st', Untouched st st' → R st st') {s : ScopeId}
    (hdefine : ∀ st name v, R st (st.define s name v)) (depth : Nat) (x : Value) :
    (eval depth x s).Keeps R := by
  have hrefl : ∀ st, R st st := fun st => huntouched st st (Untouched.refl st)
  induction depth generalizing x with
  | zero => exact Keeps.tooDeep hrefl
  | succ depth ih =>
    exact Evaluator.keeps_evalStep hrefl htrans ih
      (fun procedure args => (apply_untouched depth procedure args).mono huntouched)
      (fun st => huntouched _ _ (Untouched.countClosure st)) hdefine x

/-- Without `define`, evaluation touches no scope that was there before. -/
theorem eval_untouched (depth : Nat) {x : Value} (s : ScopeId)
    (hx : ¬ x.Mentions Keyword.define.text) : (eval depth x s).Keeps Untouched := by
  induction depth generalizing x with
  | zero => exact Keeps.tooDeep Untouched.refl
  | succ depth ih =>
    cases x with
    | atom name => exact Keeps.lookup Untouched.refl s name
    | list items =>
      -- what the list is as a form is needed here, so the failing check is a case of its own
      cases hform : Form.ofItems items with
      | error fault =>
        rw [eval_list_of_fault hform]
        exact Keeps.raise Untouched.refl fault
      | ok form =>
        rw [eval_list_of_form hform]
        have hparts := Form.forall_parts Value.hereditary_not_mentions_define hx hform
        exact Evaluator.keeps_form Untouched.refl Untouched.trans (fun y hy => ih (hparts y hy))
          (apply_untouched depth) Untouched.countClosure
          fun hdef => absurd (Form.mentions_define hform hdef) hx
    | builtin op => exact Keeps.pure Untouched.refl _
    | closure head body => exact Keeps.pure Untouched.refl _

/-- A program keeps what each of its forms keeps. -/
theorem runForms_keeps {R : Store → Store → Prop} (hrefl : ∀ st, R st st)
    (htrans : ∀ st₁ st₂ st₃, R st₁ st₂ → R st₂ st₃ → R st₁ st₃)
    {depth : Nat}
    {forms : List Value} {s : ScopeId} (h : ∀ x ∈ forms, (eval depth x s).Keeps R) :
    (runForms depth forms s).Keeps R :=
  (Keeps.stepwise hrefl htrans).foldlM
    (fun x hx _ => Keeps.bind htrans (Keeps.emit hrefl _) fun _ => h x hx) .nil

/-- **The frame of evaluation.** Let an expression, a sequence or a program be evaluated in scope
`e`, whether it ends with a value, with an error or by nesting too deep. No other scope that
existed is changed; `e` keeps its parent and all names it binds, and is not changed at all if no
`define` occurs. An application changes no scope that existed, its own caller's included. -/
theorem frame_of_evaluation (depth : Nat) (session : Session) (e : ScopeId) :
    (∀ x, TouchedOnlyAt e session.store ((eval depth x e).after session).store ∧
      (¬ x.Mentions Keyword.define.text →
        Untouched session.store ((eval depth x e).after session).store)) ∧
    (∀ xs, TouchedOnlyAt e session.store ((evalSequence depth xs e).after session).store ∧
      ((∀ x ∈ xs, ¬ x.Mentions Keyword.define.text) →
        Untouched session.store ((evalSequence depth xs e).after session).store)) ∧
    (∀ source, TouchedOnlyAt e session.store ((run depth source e).after session).store ∧
      ((∀ x ∈ read source, ¬ x.Mentions Keyword.define.text) →
        Untouched session.store ((run depth source e).after session).store)) ∧
    ∀ procedure args,
      Untouched session.store ((apply depth procedure args).after session).store := by
  refine ⟨fun x => ⟨?_, fun hx => ?_⟩, fun xs => ⟨?_, fun hxs => ?_⟩,
    fun source => ⟨?_, fun hsource => ?_⟩, fun procedure args => ?_⟩
  · exact eval_touchedOnlyAt depth x e session
  · exact eval_untouched depth e hx session
  · exact Evaluator.keeps_sequence TouchedOnlyAt.refl TouchedOnlyAt.trans
      (fun x _ => eval_touchedOnlyAt depth x e) session
  · exact Evaluator.keeps_sequence Untouched.refl Untouched.trans
      (fun x hx => eval_untouched depth e (hxs x hx)) session
  · exact runForms_keeps TouchedOnlyAt.refl TouchedOnlyAt.trans
      (fun x _ => eval_touchedOnlyAt depth x e) session
  · exact runForms_keeps Untouched.refl Untouched.trans
      (fun x hx => eval_untouched depth e (hsource x hx)) session
  · exact apply_untouched depth procedure args session

end AtomLisp
