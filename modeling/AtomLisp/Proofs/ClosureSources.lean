import AtomLisp.Proofs.Appending
import AtomLisp.Proofs.Chronicles
import AtomLisp.Proofs.Clauses

/-!
# A closure is written as its own source

The text of a closure is that of the `lambda` form with its parameters and its body. Parameters are
atoms and bodies are trees wherever closures come from source text, so the text is read back as this
form, and evaluating the form in the scope that the closure has captured makes a closure that cannot
be told from it but by its name and its number. Applying a closure depends on these two in no other
way than that its name is shown to a listener, and in the error if the number of arguments is wrong.

The text is the matter of `Value.render_closure`, evaluating the form that of `eval_lambdaForm`, and
applying a closure that of `Evaluator.apply_closure_eq`. `closures_render_as_source` is all of this,
of every closure that programs make.
-/

namespace AtomLisp

open Value (TreeOf)
open Eval

/-! ### The text of a closure -/

namespace Value

/-- The form that makes a closure with these parameters and this body. -/
def lambdaForm (params : List String) (body : List Value) : Value :=
  .list (.atom Keyword.lambda.text :: .list (params.map .atom) :: body)

/-- Names with one space between each two of them are written like a list of atoms. -/
theorem renderItems_map_atom (params : List String) :
    renderItems (params.map .atom) = String.intercalate " " params := by
  induction params with
  | nil => simp [renderItems]
  | cons param params ih =>
    cases params with
    | nil => simp [renderItems, renderTail, render]
    | cons next params =>
      rw [String.intercalate_cons_cons, ← ih, List.map_cons, List.map_cons, renderItems,
        renderTail, renderItems, render, String.append_assoc]

/-- A closure is written as the form that makes it. -/
theorem render_closure (head : ClosureHead) (body : List Value) :
    (closure head body).render = (lambdaForm head.params body).render := by
  have hopen : "(lambda (" = "(" ++ (Keyword.lambda.text ++ (" " ++ "(")) := by decide
  rw [lambdaForm, render, render, renderItems, renderTail, render, render, renderItems_map_atom,
    hopen]
  simp only [String.append_assoc]

/-- The form that makes a closure is a tree if its parts are. -/
theorem treeOf_lambdaForm {params : List String} {body : List Value}
    (hparams : ∀ name ∈ params, Text.IsAtom name)
    (hbody : ∀ x ∈ body, TreeOf Text.IsAtom x) :
    TreeOf Text.IsAtom (lambdaForm params body) := by
  have hkeyword : TreeOf Text.IsAtom (.atom Keyword.lambda.text) := .atom (by decide)
  have hlist : TreeOf Text.IsAtom (.list (params.map .atom)) := by
    refine .list fun x hx => ?_
    obtain ⟨name, hname, rfl⟩ := List.mem_map.1 hx
    exact .atom (hparams name hname)
  exact .list (List.forall_mem_cons.2 ⟨hkeyword, List.forall_mem_cons.2 ⟨hlist, hbody⟩⟩)

/-- The text of a closure that is made of source text is read as the form that makes it. -/
theorem read_render_closure {head : ClosureHead} {body : List Value}
    (hparams : ∀ name ∈ head.params, Text.IsAtom name)
    (hbody : ∀ x ∈ body, TreeOf Text.IsAtom x) :
    read (closure head body).render = [lambdaForm head.params body] := by
  rw [render_closure, read_render (treeOf_lambdaForm hparams hbody)]

end Value

/-! ### The form that makes it -/

/-- Parameters that are written as atoms are read as their names. -/
theorem Form.paramNames_map_atom (params : List String) :
    paramNames (params.map .atom) = .ok params := by
  induction params with
  | nil => rfl
  | cons param params ih =>
    rw [paramNames] at ih
    rw [paramNames, List.map_cons, List.mapM_cons, ih]
    rfl

/-- The form makes a closure over the scope that it is evaluated in, and does nothing else. -/
theorem eval_lambdaForm (depth : Nat) (params : List String) (body : List Value) (s : ScopeId)
    (session : Session) :
    eval (depth + 1) (Value.lambdaForm params body) s session =
      .ok (session.store.nextClosure params body s)
        { session with store := session.store.countClosure } := by
  have hform : Form.ofItems (.atom Keyword.lambda.text :: .list (params.map .atom) :: body) =
      .ok (.lambda params body) := by
    rw [Form.ofItems_keyword, Form.ofOperands, Form.paramNames_map_atom]
    rfl
  rw [Value.lambdaForm, eval_list_of_form hform]
  rfl

/-! ### Applying closures -/

namespace Evaluator

variable {ev : Evaluator Eval} (hev : ∀ x s, (ev x s).Appends) {head : ClosureHead}
  {body args : List Value}

include hev

/-- Applying a closure to as many arguments as it has parameters is noted under its name. All else
that is done is a matter of its parameters, its scope, its body and the store. -/
theorem apply_closure_eq (hlength : head.params.length = args.length) (session : Session) :
    ∃ (outcome : Except Stop Value) (t : Session), ∀ name id,
      (ev.apply (.closure { head with name, id } body) args).outcome session = outcome ∧
      (ev.apply (.closure { head with name, id } body) args).after session =
        t.since session.output (session.events.push (.applyClosure name args.length)) := by
  let enter : Eval Value :=
    Eval.extend head.scope (head.params.zip args) >>= fun s => ev.sequence body s
  have henter : enter.Appends :=
    .bind (.extend _ _) fun s => Appends.stepwise.foldlM (fun x _ _ => hev x s) Value.nil
  refine ⟨enter.outcome { store := session.store }, enter.after { store := session.store },
    fun name id => ?_⟩
  have happly : ev.apply (.closure { head with name, id } body) args =
      Eval.emit (.applyClosure name args.length) >>= fun _ => enter := by
    rw [apply, applyClosure, if_pos hlength]
    rfl
  let noted : Session :=
    { session with events := session.events.push (.applyClosure name args.length) }
  rw [happly]
  exact ⟨henter.outcome_eq_of_store noted, henter.after_eq_of_store noted⟩

omit hev

/-- Applied to too many or too few arguments, a closure is shown in the message, and nothing is
done. -/
theorem apply_closure_of_length_ne (hlength : head.params.length ≠ args.length)
    (session : Session) (name : Option String) (id : Nat) :
    ev.apply (.closure { head with name, id } body) args session =
      .error (.error { fault := .closureArity { head with name, id } args.length }) session := by
  rw [apply, applyClosure, if_neg hlength]
  rfl

end Evaluator

open Journal

/-- **A closure is written as its own source.** Let some programs have been run in root scopes and
in the scopes inside them, with the library or without it, where programs may have failed. There is
a journal of all that they have done, and every closure that a scope binds has been written down in
it when it was made.

Take any closure that has been made, whatever its name is by now. Its text is read as exactly one
form: the list of the atom `lambda`, the list of its parameters, and the forms of its body. At every
time, evaluating this form in the scope that the closure has captured makes a closure with the same
parameters, the same body and the same scope, and does nothing else. Whatever two such closures are
applied to, in whatever session, they do the same: the outcome is the same, and so is the session
that they leave, but that the event of the application names the one or the other. If the number of
arguments is wrong, nothing is done, and the error names the one or the other. -/
theorem closures_render_as_source {session : Session} (h : session.FromPrograms) :
    (∃ log, session.Chronicle log) ∧ ∀ log, session.Chronicle log →
      (∀ head body, session.store.Contains (.closure head body) →
        .make { head with name := none } body ∈ log) ∧
      ∀ head body, .make head body ∈ log →
        (∀ name id, read (Value.closure { head with name, id } body).render =
          [.list (.atom "lambda" :: .list (head.params.map .atom) :: body)]) ∧
        (∀ depth later,
          eval (depth + 1) (.list (.atom "lambda" :: .list (head.params.map .atom) :: body))
              head.scope later =
            .ok (.closure { head with name := none, id := later.store.closures } body)
              { later with store := later.store.countClosure }) ∧
        ∀ depth args later,
          (head.params.length = args.length → ∃ (outcome : Except Stop Value) (t : Session),
            ∀ name id,
              (apply depth (.closure { head with name, id } body) args).outcome later = outcome ∧
              (apply depth (.closure { head with name, id } body) args).after later =
                t.since later.output (later.events.push (.applyClosure name args.length))) ∧
          (head.params.length ≠ args.length → ∀ name id,
            apply depth (.closure { head with name, id } body) args later =
              .error (.error { fault := .closureArity { head with name, id } args.length })
                later) := by
  refine ⟨h.exists_chronicle, fun log hlog => ?_⟩
  have hleads := hlog.leadsTo
  refine ⟨fun head body hcontains => ?_, fun head body hmade => ?_⟩
  · exact (hleads.settled_of_contains hcontains).made
  · obtain ⟨-, -, hparams, hbody⟩ := hleads.lawful.of_make hmade
    refine ⟨fun name id => Value.read_render_closure hparams hbody, fun depth later => ?_,
      fun depth args later => ⟨fun hlength => ?_, fun hlength name id => ?_⟩⟩
    · exact eval_lambdaForm depth head.params body head.scope later
    · exact Evaluator.apply_closure_eq (eval_appends depth) hlength later
    · exact Evaluator.apply_closure_of_length_ne hlength later name id

/-- A procedure that a program has defined is read back from its text without its name. -/
theorem source_of_defined_procedure :
    ∃ (session : Session) (f : Value), session.FromPrograms ∧
      (∃ b, session.store.binding? 0 "f" = some b ∧ b.held = f) ∧
      read f.render = [.list [.atom "lambda", .list [.atom "x"],
        .list [.atom "g", .atom "x", .atom "'y"], .list []]] := by
  have hroot : Session.FromPrograms (Eval.newRoot.after {}) := .single (.root {})
  have hsession := hroot.tail (.run _ 2 "(define (f x) (g x 'y) ())" 0)
  let head : ClosureHead := { name := some "f", params := ["x"], scope := 0, id := 0 }
  have hread : read "(define (f x) (g x 'y) ())" = [.list [.atom "define",
      .list [.atom "f", .atom "x"], .list [.atom "g", .atom "x", .atom "'y"], .list []]] := rfl
  have hf : ((run 2 "(define (f x) (g x 'y) ())" 0).after (Eval.newRoot.after {})).store.binding?
      0 "f" = some (.weak head [.list [.atom "g", .atom "x", .atom "'y"], .list []]) := by
    rw [run, hread]
    with_unfolding_all rfl
  obtain ⟨⟨log, hlog⟩, hsources⟩ := closures_render_as_source hsession
  obtain ⟨hmade, hsource⟩ := hsources log hlog
  obtain ⟨hrendered, -⟩ := hsource _ _ (hmade head _ ⟨0, "f", _, hf, .refl⟩)
  exact ⟨_, _, hsession, ⟨_, hf, rfl⟩, hrendered (some "f") 0⟩

end AtomLisp
