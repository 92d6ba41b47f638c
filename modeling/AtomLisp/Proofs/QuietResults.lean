import AtomLisp.Proofs.Clauses
import AtomLisp.Proofs.Frame
import AtomLisp.Proofs.Shadowing

/-!
# Results without side effects

Much of what a program does has a result and leaves no other trace: nothing is printed, and no scope
that existed is changed. Such a computation has the same result wherever the scopes that it looks at
are as they are now, so its result is found from the results of its parts.

What a name is found to stand for is what is looked up, now and later (`Store.Finds.mono`,
`Store.Finds.lookup_eq`), also from a new scope. There is one rule for each way to evaluate:
`Eval.Gives.atom`, `Eval.Gives.branch`, `Eval.Gives.application`, `Eval.Gives.closure`.
-/

namespace AtomLisp

/-! ### What a name is found to stand for -/

namespace Store

/-- The name stands for this value in scope `s`. Scopes on the way that have no answer do not bind
the name at all, so they will have none as long as they are not changed. -/
inductive Finds (st : Store) : ScopeId → String → Value → Prop where
  | here {s : ScopeId} {name : String} {v : Value} :
      st.answer? s name = some v → Finds st s name v
  | up {s parent : ScopeId} {name : String} {v : Value} :
      st.parent? s = some parent → parent < s →
      st.binding? s name = none → Finds st parent name v → Finds st s name v
  | root {s : ScopeId} {name : String} : s < st.nextScope → st.parent? s = none →
      st.binding? s name = none → Finds st s name (unbound name)

variable {st st' : Store} {s : ScopeId} {name : String} {v : Value}

theorem lt_of_answer? (h : st.answer? s name = some v) : s < st.nextScope := by
  obtain ⟨b, hb, -⟩ := Option.bind_eq_some_iff.1 h
  exact lt_of_binding? hb

/-- An answer stays as long as the scopes do: if it is a closure that is held weakly, its scope is
live, so it is one of them. -/
theorem Untouched.answer?_eq_some (huntouched : Untouched st st')
    (h : st.answer? s name = some v) : st'.answer? s name = some v := by
  obtain ⟨b, hb, hresolve⟩ := Option.bind_eq_some_iff.1 h
  rw [answer?, huntouched.binding?_eq (lt_of_binding? hb), hb, Option.bind_some]
  cases b with
  | value u => exact hresolve
  | weak head body =>
    have hlive : st.isLive head.scope = true :=
      eq_true_of_ne_false ((resolve_eq_some_iff st v).1 hresolve).1
    rw [resolve, huntouched.isLive_eq (lt_of_isLive hlive)]
    exact hresolve

namespace Finds

theorem lt_nextScope (h : st.Finds s name v) : s < st.nextScope := by
  cases h with
  | here hanswer => exact lt_of_answer? hanswer
  | up hparent _ _ _ => exact lt_of_parent? hparent
  | root hs _ _ => exact hs

theorem lookup_eq (h : st.Finds s name v) : st.lookup s name = v := by
  induction h with
  | here hanswer => exact lookup_of_answer hanswer
  | up hparent hlt hbinding _ ih =>
    rw [lookup_of_parent hparent hlt, answer?_of_binding?_eq_none hbinding, Option.getD_none]
    exact ih
  | root _ hparent hbinding =>
    rw [lookup_of_root hparent, answer?_of_binding?_eq_none hbinding, Option.getD_none]

/-- As long as no scope is changed, the name stands for the value. -/
theorem mono (h : st.Finds s name v) (huntouched : Untouched st st') : st'.Finds s name v := by
  induction h with
  | here hanswer => exact .here (huntouched.answer?_eq_some hanswer)
  | @up s parent name v hparent hlt hbinding hfinds ih =>
    have hs : s < st.nextScope := (Finds.up hparent hlt hbinding hfinds).lt_nextScope
    refine .up ?_ hlt ?_ ih
    · rw [huntouched.parent?_eq hs, hparent]
    · rw [huntouched.binding?_eq hs, hbinding]
  | root hs hparent hbinding =>
    refine .root (Nat.lt_of_lt_of_le hs huntouched.nextScope_le) ?_ ?_
    · rw [huntouched.parent?_eq hs, hparent]
    · rw [huntouched.binding?_eq hs, hbinding]

/-- From a scope that is opened later, a name that it does not bind is found to stand for what it
stands for around it. -/
theorem outside (h : st.Finds s name v) (huntouched : Untouched st st')
    {bindings : List (String × Value)} (hname : name ∉ bindings.map Prod.fst) :
    (st'.extend s bindings).Finds st'.nextScope name v := by
  have hfinds : st'.Finds s name v := h.mono huntouched
  exact .up (parent?_extend_self bindings) hfinds.lt_nextScope
    (binding?_extend_of_notMem bindings hname) (hfinds.mono (.extend st' s bindings))

/-- From a scope that is opened, a parameter is found to stand for its last argument. -/
theorem argument (s : ScopeId) (front rest : List (String × Value)) (v : Value)
    (hrest : name ∉ rest.map Prod.fst) :
    (st.extend s (front ++ (name, v) :: rest)).Finds st.nextScope name (v.named name) :=
  .here (answer?_extend s front rest v hrest)

end Finds

end Store

open Store

namespace Eval

variable {α β : Type}

/-! ### Quiet computations -/

/-- The computation ends in this way, prints nothing and changes no scope that exists. -/
structure EndsQuietly (act : Eval α) (session : Session) (result : Except Stop α) : Prop where
  outcome_eq : act.outcome session = result
  output_eq : (act.after session).output = session.output
  untouched : Untouched session.store (act.after session).store

/-- Wherever the scopes of `st` are as they are there, the computation ends quietly in this way. -/
def Gives (act : Eval α) (st : Store) (result : Except Stop α) : Prop :=
  ∀ session : Session, Untouched st session.store → act.EndsQuietly session result

/-- The second step ends quietly in the session that the first one leaves. -/
theorem EndsQuietly.bind {act : Eval α} {next : α → Eval β} {session : Session} {a : α}
    {result : Except Stop β} (hact : act.EndsQuietly session (.ok a))
    (hnext : (next a).EndsQuietly (act.after session) result) :
    (act >>= next).EndsQuietly session result := by
  have hafter := after_bind_of_ok hact.outcome_eq next
  refine ⟨?_, ?_, ?_⟩
  · rw [outcome_bind_of_ok hact.outcome_eq, hnext.outcome_eq]
  · rw [hafter, hnext.output_eq, hact.output_eq]
  · rw [hafter]
    exact hact.untouched.trans _ _ _ hnext.untouched

namespace Gives

variable {st : Store} {act : Eval α} {next : α → Eval β} {a : α} {result : Except Stop β}

theorem pure (a : α) : (Pure.pure a : Eval α).Gives st (.ok a) :=
  fun session _ => ⟨rfl, rfl, .refl session.store⟩

theorem raise (fault : Fault) : (Eval.raise fault : Eval α).Gives st (.error (.error { fault })) :=
  fun session _ => ⟨rfl, rfl, .refl session.store⟩

theorem emit (event : Event) : (Eval.emit event).Gives st (.ok ()) :=
  fun session _ => ⟨rfl, rfl, .refl session.store⟩

/-- What is found is the result of looking it up. -/
theorem lookup {s : ScopeId} {name : String} {v : Value} (h : st.Finds s name v) :
    (Eval.lookup s name).Gives st (.ok v) :=
  fun session hsession =>
    ⟨congrArg Except.ok (h.mono hsession).lookup_eq, rfl, .refl session.store⟩

/-- The result of two steps is that of the second one, with the result of the first. -/
theorem bind (hact : act.Gives st (.ok a)) (hnext : (next a).Gives st result) :
    (act >>= next).Gives st result := by
  intro session hsession
  have hfirst := hact session hsession
  exact hfirst.bind (hnext _ (hsession.trans _ _ _ hfirst.untouched))

/-- An error gets its context, and a value none. -/
theorem within {result : Except Stop α} (form : Value) (h : act.Gives st result) :
    (Eval.within form act).Gives st (result.mapError (Stop.within form)) := by
  intro session hsession
  obtain ⟨houtcome, houtput, huntouched⟩ := h session hsession
  rw [← after_within form act session] at houtput huntouched
  refine ⟨?_, houtput, huntouched⟩
  rw [← houtcome]
  unfold outcome Eval.within
  cases act session <;> rfl

/-- Values are given in order. -/
theorem mapM {γ : Type} {f : γ → Eval α} {xs : List γ} {as : List α}
    (h : List.Forall₂ (fun x a => (f x).Gives st (.ok a)) xs as) :
    (xs.mapM f).Gives st (.ok as) := by
  induction h with
  | nil => exact pure []
  | cons hx _ ih =>
    rw [List.mapM_cons]
    exact hx.bind (ih.bind (pure _))

end Gives

/-! ### Evaluation -/

namespace Gives

variable {st : Store} {s : ScopeId} {result : Except Stop Value}

theorem atom {name : String} {v : Value} (h : st.Finds s name v) (depth : Nat) :
    (eval (depth + 1) (.atom name) s).Gives st (.ok v) :=
  lookup h

theorem form {depth : Nat} {items : List Value} {form : Form}
    (hform : Form.ofItems items = .ok form)
    (h : ((eval depth).form s form).Gives st result) :
    (eval (depth + 1) (.list items) s).Gives st result := by
  rwa [eval_list_of_form hform]

variable {ev : Evaluator Eval}

/-- A branch gives what the part gives that the predicate chooses. -/
theorem branch {predicate consequent alternative v : Value} (b : Bool)
    (hpredicate : (ev predicate s).Gives st (.ok v)) (hv : v.truthiness = .ok b)
    (h : (ev (if b then consequent else alternative) s).Gives st result) :
    (ev.form s (.branch predicate consequent (some alternative))).Gives st result := by
  refine hpredicate.bind ?_
  rw [hv]
  cases b <;> exact h

/-- An application gives what its procedure gives for the values of the operands. -/
theorem application {operator procedure : Value} {operands args : List Value}
    (hoperator : (ev operator s).Gives st (.ok procedure))
    (hoperands : List.Forall₂ (fun x v => (ev x s).Gives st (.ok v)) operands args)
    (happly : (ev.apply procedure args).Gives st result) :
    (ev.form s (.application (operator :: operands))).Gives st
      (result.mapError (Stop.within (.list (operator :: operands)))) :=
  within _ (hoperator.bind ((mapM hoperands).bind happly))

/-- A name is applied to names. -/
theorem call {depth : Nat} {operator : String} {operands : List String} {procedure : Value}
    {args : List Value} (hform : Form.ofItems (.atom operator :: operands.map .atom) =
      .ok (.application (.atom operator :: operands.map .atom)))
    (hoperator : st.Finds s operator procedure)
    (hoperands : List.Forall₂ (st.Finds s) operands args)
    (happly : (apply (depth + 1) procedure args).Gives st result) :
    (eval (depth + 2) (.list (.atom operator :: operands.map .atom)) s).Gives st
      (result.mapError (Stop.within (.list (.atom operator :: operands.map .atom)))) := by
  have hargs : List.Forall₂ (fun x v => (eval (depth + 1) x s).Gives st (.ok v))
      (operands.map .atom) args :=
    List.forall₂_map_left_iff.2 (hoperands.imp fun _ _ hfinds => atom hfinds depth)
  exact form hform (application (atom hoperator depth) hargs happly)

/-- A closure with a single form in its body gives what this form gives in a new scope, wherever
that scope is made. -/
theorem closure {head : ClosureHead} {expr : Value} {args : List Value}
    (hlength : head.params.length = args.length)
    (hbody : ∀ st', Untouched st st' →
      (ev expr st'.nextScope).Gives (st'.extend head.scope (head.params.zip args)) result) :
    (ev.apply (.closure head [expr]) args).Gives st result := by
  rw [Evaluator.apply, Evaluator.applyClosure, if_pos hlength]
  refine (emit _).bind fun session hsession => ?_
  let entered : Session :=
    { session with store := session.store.extend head.scope (head.params.zip args) }
  have hsequence : ev.sequence [expr] session.store.nextScope =
      ev expr session.store.nextScope := by
    rw [Evaluator.sequence, List.foldlM_cons]
    exact bind_pure _
  have hopened := hbody session.store hsession entered (.refl entered.store)
  rw [← hsequence] at hopened
  exact ⟨hopened.outcome_eq, hopened.output_eq,
    (Untouched.extend session.store head.scope _).trans _ _ _ hopened.untouched⟩

/-- A closure with a single parameter gives what its body gives in a scope where the parameter
stands for the argument, and all other names stand for what they stand for around it. -/
theorem unary {head : ClosureHead} {param : String} {expr x : Value}
    (hparams : head.params = [param])
    (hbody : ∀ st₁ s₁, Untouched st st₁ → st₁.Finds s₁ param (x.named param) →
      (∀ name v, name ≠ param → st.Finds head.scope name v → st₁.Finds s₁ name v) →
      (ev expr s₁).Gives st₁ result) :
    (ev.apply (.closure head [expr]) [x]).Gives st result := by
  have hlength : head.params.length = [x].length := congrArg List.length hparams
  refine closure hlength fun st' hst' => ?_
  rw [hparams]
  refine hbody _ _ (hst'.trans _ _ _ (.extend st' head.scope _)) ?_ fun name v hname hfinds => ?_
  · exact .argument head.scope [] [] x List.not_mem_nil
  · exact hfinds.outside hst' fun hmem => hname (List.mem_singleton.1 hmem)

/-- Two values are compared. -/
theorem isEq (x y : Value) : (Builtin.isEq.call [x, y]).Gives st (.ok (.ofBool (x == y))) :=
  (emit _).bind (pure _)

/-- A program reports an error of its own. -/
theorem raiseUser (args : List Value) : (Builtin.raise.call args).Gives st
    (.error (.error { fault := .user (Value.renderAll args) })) :=
  (emit _).bind ((emit _).bind (raise _))

end Gives

end Eval

end AtomLisp
