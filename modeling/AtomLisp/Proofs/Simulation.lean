import AtomLisp.Library
import AtomLisp.Proofs.FormParts
import AtomLisp.Proofs.LockStep

/-!
# Evaluation in stores that mirror one another

Evaluation looks at scopes through lookups only, and names them by numbers only. So evaluating the
same expression, under new numbers, in a store that mirrors the first one goes on in lock step, as
long as it looks up known names only (`Mirror.follows_eval`). A form follows if its parts do
(`Mirror.Follows.form`), and from expressions this passes on to applications and programs.
-/

namespace AtomLisp

open Store

namespace Mirror

variable (M : Mirror)

/-- Under new numbers, and in a store that mirrors the first one, the evaluator does the same. -/
def Follows (ev : Evaluator Eval) : Prop :=
  ∀ (w : Store) (x : Value) (s : ScopeId), M.Covers w x → M.visible s → s < w.nextScope →
    M.LockStep w M.Image (ev x s) (ev (x.rename M.numbering) (M.numbering.scope s))

variable {M} {ev : Evaluator Eval} {w : Store} {s : ScopeId}

namespace Follows

/-- Expressions one after the other go on in lock step. -/
theorem sequence (hev : M.Follows ev) {exprs : List Value} (hexprs : ∀ x ∈ exprs, M.Covers w x)
    (hs : M.visible s) (hlt : s < w.nextScope) :
    M.LockStep w M.Image (ev.sequence exprs s)
      (ev.sequence (exprs.map (Value.rename M.numbering)) (M.numbering.scope s)) := by
  refine LockStep.foldlM (fun st _ _ hst _ x hx => ?_) (Image.nil w)
  have hx' : M.Covers st x := (hexprs x hx).evolves hst
  exact hev st x s hx' hs (Nat.lt_of_lt_of_le hlt (Evolves.nextScope_le hst))

/-- The body of a closure is evaluated in a scope that is opened in both stores. -/
theorem applyClosure (hev : M.Follows ev) {head : ClosureHead} {body args : List Value}
    (hclosure : M.Admits w (.closure head body)) (hargs : ∀ x ∈ args, M.Admits w x) :
    M.LockStep w M.Image (ev.applyClosure head body args)
      (ev.applyClosure (head.rename M.numbering) (body.map (Value.rename M.numbering))
        (args.map (Value.rename M.numbering))) := by
  obtain ⟨⟨hvisible, hlt, -⟩, hbody⟩ := admits_closure.1 hclosure
  unfold Evaluator.applyClosure
  rw [List.length_map]
  show M.LockStep w M.Image (if head.params.length = args.length then _ else _)
    (if head.params.length = args.length then _ else _)
  by_cases hlength : head.params.length = args.length
  · rw [if_pos hlength, if_pos hlength]
    refine LockStep.bind (LockStep.emit _) fun st _ _ hst _ => ?_
    have hlt' : head.scope < st.nextScope := Nat.lt_of_lt_of_le hlt (Evolves.nextScope_le hst)
    have hbindings : ∀ binding ∈ head.params.zip args, M.Admits st binding.2 :=
      fun binding hbinding => (hargs _ (List.of_mem_zip hbinding).2).evolves hst
    have hextend := LockStep.extend hvisible hlt' hbindings
    rw [← List.zip_map_right] at hextend
    refine LockStep.bind hextend fun st' t t' hst' ht => ?_
    obtain ⟨rfl, htvisible, htlt⟩ := ht
    have hbody' : ∀ x ∈ body, M.Covers st' x :=
      fun x hx => (hbody x hx).evolves (hst.trans hst')
    exact sequence hev hbody' htvisible htlt
  · rw [if_neg hlength, if_neg hlength]
    exact LockStep.raise _

/-- A procedure that is applied to the same arguments goes on in lock step. -/
theorem apply (hev : M.Follows ev) {procedure : Value} {args : List Value}
    (hprocedure : M.Admits w procedure) (hargs : ∀ x ∈ args, M.Admits w x) :
    M.LockStep w M.Image (ev.apply procedure args)
      (ev.apply (procedure.rename M.numbering) (args.map (Value.rename M.numbering))) := by
  cases procedure with
  | atom text =>
    rw [Value.rename_atom]
    exact LockStep.notProcedure (Value.rename_atom _ text)
  | list items =>
    rw [Value.rename_list]
    exact LockStep.notProcedure (Value.rename_list _ items)
  | builtin op =>
    rw [Value.rename_builtin]
    exact LockStep.call op args
  | closure head body =>
    rw [Value.rename_closure]
    exact applyClosure hev hprocedure hargs

/-- Items are evaluated, and what they yield is applied, in lock step. -/
theorem application (hev : M.Follows ev) {items : List Value}
    (hitems : ∀ x ∈ items, M.Covers w x) (hs : M.visible s) (hlt : s < w.nextScope) :
    M.LockStep w M.Image (ev.application items s)
      (ev.application (items.map (Value.rename M.numbering)) (M.numbering.scope s)) := by
  cases items with
  | nil => exact LockStep.notProcedure (Value.rename_nil _)
  | cons operator operands =>
    have hoperator := hev w operator s (hitems operator List.mem_cons_self) hs hlt
    refine LockStep.bind hoperator fun st procedure _ hst hprocedure => ?_
    obtain ⟨rfl, hadmits⟩ := hprocedure
    have hoperands : ∀ st', Evolves st st' → ∀ x ∈ operands, M.LockStep st' M.Image (ev x s)
        (ev (x.rename M.numbering) (M.numbering.scope s)) := by
      intro st' hst' x hx
      have hevolves : Evolves w st' := hst.trans hst'
      have hx' := (hitems x (List.mem_cons_of_mem _ hx)).evolves hevolves
      exact hev st' x s hx' hs (Nat.lt_of_lt_of_le hlt (Evolves.nextScope_le hevolves))
    refine LockStep.bind (LockStep.mapM hoperands) fun st' args _ hst' hargs => ?_
    obtain ⟨rfl, hall⟩ := hargs
    exact apply hev (hadmits.evolves hst') hall

/-- A form whose parts are covered is evaluated in lock step. -/
theorem form (hev : M.Follows ev) {form : Form} (hparts : ∀ x ∈ form.parts, M.Covers w x)
    (hs : M.visible s) (hlt : s < w.nextScope) :
    M.LockStep w M.Image (ev.form s form)
      (ev.form (M.numbering.scope s) (form.rename M.numbering)) := by
  cases form with
  | lambda params body => exact LockStep.makeClosure hs hlt params hparts
  | defineProcedure name params body =>
    refine LockStep.bind (LockStep.makeClosure hs hlt params hparts) fun st v v' hst hv => ?_
    exact LockStep.define (Nat.lt_of_lt_of_le hlt (Evolves.nextScope_le hst)) name hv
  | defineValue name expr =>
    have hexpr := hev w expr s (hparts expr List.mem_cons_self) hs hlt
    refine LockStep.bind hexpr fun st v v' hst hv => ?_
    exact LockStep.define (Nat.lt_of_lt_of_le hlt (Evolves.nextScope_le hst)) name hv
  | branch predicate consequent alternative =>
    have hpredicate := hev w predicate s (hparts predicate List.mem_cons_self) hs hlt
    refine LockStep.bind hpredicate fun st v _ hst hv => ?_
    obtain ⟨rfl, -⟩ := hv
    rw [Value.truthiness_rename]
    refine LockStep.bind (Q := fun _ b b' => b' = b) (LockStep.ofExcept fun _ _ _ _ => rfl)
      fun st' b b' hst' hb => ?_
    subst hb
    -- whichever expression comes next, it is a part of the form
    have hnext : ∀ x ∈ (Form.branch predicate consequent alternative).parts,
        M.LockStep st' M.Image (ev x s) (ev (x.rename M.numbering) (M.numbering.scope s)) := by
      intro x hx
      have hevolves : Evolves w st' := hst.trans hst'
      exact hev st' x s ((hparts x hx).evolves hevolves) hs
        (Nat.lt_of_lt_of_le hlt (Evolves.nextScope_le hevolves))
    cases b' with
    | true => exact hnext consequent (List.mem_cons_of_mem _ List.mem_cons_self)
    | false =>
      cases alternative with
      | none => exact LockStep.pure fun st'' _ => Image.nil st''
      | some expr => exact hnext expr (by simp [Form.parts])
  | quote datum =>
    have hdatum : M.Admits w datum := (hparts datum List.mem_cons_self).admits
    exact LockStep.pure fun st hst => ⟨rfl, hdatum.evolves hst⟩
  | expand expr => exact hev w expr s (hparts expr List.mem_cons_self) hs hlt
  | sequence exprs => exact sequence hev hparts hs hlt
  | application items =>
    have h := (application hev hparts hs hlt).within (.list items)
    rwa [Value.rename_list] at h

theorem evalStep (hev : M.Follows ev) : M.Follows (evalStep ev) := by
  intro w x s hx hs hlt
  cases x with
  | atom name =>
    rw [Value.rename_atom]
    exact LockStep.lookup hs hlt hx.known.of_atom
  | list items =>
    rw [Value.rename_list]
    show M.LockStep w M.Image (Eval.ofExcept (Form.ofItems items) >>= _)
      (Eval.ofExcept (Form.ofItems (items.map (Value.rename M.numbering))) >>= _)
    -- a list that is no form fails in both runs, before any part of it is evaluated
    rw [Form.ofItems_rename]
    refine LockStep.bind
      (Q := fun st form form' =>
        form' = form.rename M.numbering ∧ ∀ y ∈ form.parts, M.Covers st y)
      (LockStep.ofExcept fun form hform st hst => ⟨rfl, fun y hy => ?_⟩)
      fun st form _ hst hform => ?_
    · have hadmits : M.Admits w y :=
        Form.forall_parts Value.hereditary_everyProcedure hx.admits hform y hy
      exact ⟨hadmits.evolves hst, hx.known.parts M.known_false hform y hy⟩
    · obtain ⟨rfl, hparts⟩ := hform
      exact Follows.form hev hparts hs (Nat.lt_of_lt_of_le hlt (Evolves.nextScope_le hst))
  | builtin op =>
    rw [Value.rename_builtin]
    exact LockStep.pure fun st _ =>
      ⟨(Value.rename_builtin _ op).symm, Value.everyProcedure_builtin op⟩
  | closure head body =>
    rw [Value.rename_closure]
    exact LockStep.pure fun st hst =>
      ⟨(Value.rename_closure _ head body).symm, hx.admits.evolves hst⟩

end Follows

/-- Evaluation runs in lock step with itself in stores that mirror one another. -/
theorem follows_eval (depth : Nat) : M.Follows (eval depth) := by
  induction depth with
  | zero => exact fun w x s _ _ _ => LockStep.tooDeep
  | succ depth ih => exact ih.evalStep

theorem lockStep_apply (depth : Nat) {procedure : Value} {args : List Value}
    (hprocedure : M.Admits w procedure) (hargs : ∀ x ∈ args, M.Admits w x) :
    M.LockStep w M.Image (apply depth procedure args)
      (apply depth (procedure.rename M.numbering) (args.map (Value.rename M.numbering))) :=
  (follows_eval depth).apply hprocedure hargs

theorem lockStep_evalSequence (depth : Nat) {exprs : List Value}
    (hexprs : ∀ x ∈ exprs, M.Covers w x) (hs : M.visible s) (hlt : s < w.nextScope) :
    M.LockStep w M.Image (evalSequence depth exprs s)
      (evalSequence depth (exprs.map (Value.rename M.numbering)) (M.numbering.scope s)) :=
  (follows_eval depth).sequence hexprs hs hlt

/-- The events that a program emits show its forms in short, which is the same under new
numbers. -/
theorem lockStep_runForms (depth : Nat) {forms : List Value}
    (hforms : ∀ x ∈ forms, M.Covers w x) (hs : M.visible s) (hlt : s < w.nextScope) :
    M.LockStep w M.Image (runForms depth forms s)
      (runForms depth (forms.map (Value.rename M.numbering)) (M.numbering.scope s)) := by
  refine LockStep.foldlM (fun st _ _ hst _ x hx => ?_) (Image.nil w)
  rw [Value.short_rename]
  refine LockStep.bind (LockStep.emit _) fun st' _ _ hst' _ => ?_
  have hevolves : Evolves w st' := hst.trans hst'
  exact follows_eval depth st' x s ((hforms x hx).evolves hevolves) hs
    (Nat.lt_of_lt_of_le hlt (Evolves.nextScope_le hevolves))

end Mirror

end AtomLisp
