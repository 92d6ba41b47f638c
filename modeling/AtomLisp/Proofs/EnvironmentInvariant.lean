import AtomLisp.Proofs.Reachable

/-!
# What holds of every environment

Whatever a host does, the environments that it gets are trees whose edges never change, and a name
that is bound in a scope stands for what it was last defined as there. What it was last defined as
is read off the history of the store, to which evaluation adds a change for each of its steps.
-/

namespace AtomLisp

open Store

/-! ### What evaluation adds to a history -/

namespace Store.History

section Steps

variable {changes : List Change} {session : Session} (h : History changes session.store)
include h

/-- To open a root is a change of its own. -/
theorem after_newRoot : History (.root :: changes) (Eval.newRoot.after session).store :=
  .change h trivial

/-- So is to make a closure. -/
theorem after_makeClosure (params : List String) (body : List Value) (s : ScopeId) :
    History (.closure :: changes) ((Eval.makeClosure params body s).after session).store :=
  .change h trivial

/-- What evaluation defines is the newest definition of the history. -/
theorem after_define {s : ScopeId} (hs : s < session.store.nextScope) (name : String) (v : Value) :
    History (.define s name v :: changes) ((Eval.define s name v).after session).store :=
  .change h hs

/-- Where a scope is opened with bindings, each of them is a definition in the new scope. -/
theorem after_extend {s : ScopeId} (hs : s < session.store.nextScope)
    (bindings : List (String × Value)) :
    History ((bindings.map fun binding =>
        .define session.store.nextScope binding.1 binding.2).reverse ++ .child s :: changes)
      ((Eval.extend s bindings).after session).store := by
  have hdefineAll : ∀ {later : List Change} {st : Store} {t : ScopeId}, History later st →
      t < st.nextScope → History ((bindings.map fun binding =>
        .define t binding.1 binding.2).reverse ++ later) (st.defineAll t bindings) := by
    induction bindings with
    | nil => exact fun hst _ => hst
    | cons binding rest ih =>
      intro later st t hst ht
      have hdefine : History (.define t binding.1 binding.2 :: later)
          (st.define t binding.1 binding.2) := .change hst ht
      have hnext : t < (st.define t binding.1 binding.2).nextScope := by rwa [nextScope_define]
      rw [List.map_cons, List.reverse_cons, List.append_assoc]
      exact ih hdefine hnext
  have hchild : History (.child s :: changes) (session.store.addScope (some s)) := .change h hs
  refine hdefineAll hchild ?_
  rw [nextScope_addScope]
  exact Nat.lt_succ_self _

end Steps

variable {changes : List Change} {session : Session} {s : ScopeId} {depth : Nat}

/-- A definition whose expression has a value defines that value, after all that evaluating the
expression has changed. -/
theorem after_eval_defineValue {name : String} {expr v : Value} {t : Session}
    (hrun : eval depth expr s session = .ok v t) (h : History changes t.store)
    (hs : s < t.store.nextScope) :
    History (.define s name v :: changes)
      ((eval (depth + 1) (.list [.atom "define", .atom name, expr]) s).after session).store := by
  have hform : Form.ofItems [.atom "define", .atom name, expr] = .ok (.defineValue name expr) := rfl
  have hafter : (eval depth expr s).after session = t := by rw [Eval.after, hrun]
  have houtcome : (eval depth expr s).outcome session = .ok v := by rw [Eval.outcome, hrun]
  rw [eval_list_of_form hform, Evaluator.form, Eval.after_bind_of_ok houtcome, hafter]
  exact h.after_define hs name v

/-- The definition of a procedure makes a closure, and then defines it. -/
theorem after_eval_defineProcedure (h : History changes session.store)
    (hs : s < session.store.nextScope) {name : String} {params : List String} {body : List Value}
    {items : List Value} (hform : Form.ofItems items = .ok (.defineProcedure name params body)) :
    History (.define s name (session.store.nextClosure params body s) :: .closure :: changes)
      ((eval (depth + 1) (.list items) s).after session).store := by
  rw [eval_list_of_form hform, Evaluator.form,
    Eval.after_bind_of_ok (a := session.store.nextClosure params body s) rfl]
  exact (h.after_makeClosure params body s).after_define hs name _

end Store.History

/-! ### What scopes hold -/

/-- Only a closure over the very scope that binds it is held weakly. -/
theorem Binding.hold_eq_weak_iff (s : ScopeId) (v : Value) :
    (∃ head body, hold s v = .weak head body) ↔
      ∃ head body, v = .closure head body ∧ head.scope = s := by
  cases v with
  | closure head body =>
    rw [hold]
    by_cases hscope : head.scope = s
    · rw [if_pos hscope]
      exact ⟨fun _ => ⟨head, body, rfl, hscope⟩, fun _ => ⟨head, body, rfl⟩⟩
    · rw [if_neg hscope]
      refine ⟨fun h => ?_, fun h => ?_⟩
      · obtain ⟨head', body', h⟩ := h
        cases h
      · obtain ⟨head', body', h, hscope'⟩ := h
        cases h
        exact absurd hscope' hscope
  | _ => simp [hold]

/-- A scope holds a closure weakly just when it is the scope that the closure captured. -/
theorem Store.History.weak_iff {changes : List Change} {st : Store} (h : History changes st)
    {s : ScopeId} {name : String} {b : Binding} (hb : st.binding? s name = some b) :
    (∃ head body, b = .weak head body) ↔
      ∃ head body, b.held = .closure head body ∧ head.scope = s := by
  rw [h.binding?_eq] at hb
  obtain ⟨v, -, rfl⟩ := Option.map_eq_some_iff.1 hb
  rw [Binding.held_hold]
  exact Binding.hold_eq_weak_iff s (v.named name)

/-- A name that a live scope binds stands for what it was last defined as in that scope. -/
theorem Store.History.lookup_of_isBound {changes : List Change} {st : Store}
    (h : History changes st) {s : ScopeId} (hs : st.isLive s = true) {name : String}
    (hbound : st.isBound s name = true) :
    ∃ v, latest? s name changes = some v ∧ st.lookup s name = v.named name := by
  obtain ⟨b, hb⟩ := (isBound_iff _ _ _).1 hbound
  rw [h.binding?_eq] at hb
  obtain ⟨v, hv, -⟩ := Option.map_eq_some_iff.1 hb
  exact ⟨v, hv, h.lookup_eq hs hv⟩

/-- **What holds of every environment.** Let a host open scopes, bind names, load the library and
evaluate what it likes, with or without success. Then every parent is older than its child and
stays its parent, so the chain from a scope ends in a root; a binding is held weakly just when it
is a closure over the scope that holds it; and a name bound in a live scope stands for what it was
last defined as in that scope, in every history that the store can have. A scope is live unless it
has been given up. -/
theorem environment_invariant {session : Session} (h : session.Reachable) :
    (∀ s, (∀ parent, session.store.parent? s = some parent → parent < s) ∧
      (session.store.chain s).head? = some s ∧
      (session.store.chain s).IsChain (fun t parent => session.store.parent? t = some parent) ∧
      (∃ root, (session.store.chain s).getLast? = some root ∧
        session.store.parent? root = none) ∧
      ∀ later, Session.Later session later → s < session.store.nextScope →
        later.store.parent? s = session.store.parent? s) ∧
    (∀ s name b, session.store.binding? s name = some b →
      ((∃ head body, b = .weak head body) ↔
        ∃ head body, b.held = .closure head body ∧ head.scope = s)) ∧
    (∃ changes, History changes session.store) ∧
    ∀ changes, History changes session.store → ∀ s,
      (s < session.store.nextScope → Change.release s ∉ changes →
        session.store.isLive s = true) ∧
      (session.store.isLive s = true → ∀ name, session.store.isBound s name = true →
        ∃ v, latest? s name changes = some v ∧ session.store.lookup s name = v.named name) := by
  have hsound := h.sound
  obtain ⟨changes, hchanges⟩ := h.history
  refine ⟨fun s => ⟨hsound.parent_lt s, ?_, ?_⟩, ?_, ⟨changes, hchanges⟩, ?_⟩
  · rw [Store.chain]
    rfl
  · obtain ⟨hchain, hroot⟩ := chain_isChain session.store hsound.parent_lt s
    refine ⟨hchain, hroot, fun later hlater hs => ?_⟩
    exact Evolves.parent?_eq (hlater.evolves_sound hsound).1 hs
  · intro s name b hb
    exact hchanges.weak_iff hb
  · intro changes' hchanges' s
    refine ⟨hchanges'.isLive_eq_true, fun hs name hbound => ?_⟩
    exact hchanges'.lookup_of_isBound hs hbound

/-- A root binds a closure over itself to a name, and then a scope inside it binds the name to an
atom. Each of the two scopes answers with its own binding. -/
theorem lookup_of_shadowed_closure :
    ∃ (session : Session) (f : Value),
      session.Reachable ∧
      History [.define 1 "f" (.atom "1"), .child 0, .define 0 "f" f, .closure, .root]
        session.store ∧
      session.store.isBound 0 "f" = true ∧ session.store.isBound 1 "f" = true ∧
      session.store.lookup 0 "f" = f.named "f" ∧ session.store.lookup 1 "f" = .atom "1" := by
  let f : Value := .closure { name := none, params := [], scope := 0, id := 0 } []
  let s₁ : Session := Eval.newRoot.after {}
  let s₂ : Session := (Eval.makeClosure [] [] 0).after s₁
  let s₃ : Session := (Eval.define 0 "f" f).after s₂
  let s₄ : Session := (Eval.extend 0 [("f", .atom "1")]).after s₃
  have hf : s₂.store.Has f :=
    Value.everyClosure_closure.2
      ⟨⟨by decide, by decide⟩, fun x hx => absurd hx List.not_mem_nil⟩
  have h₁ : Session.Step {} s₁ := .root {}
  have h₂ : Session.Step s₁ s₂ :=
    .closure [] (by decide) fun x hx => absurd hx List.not_mem_nil
  have h₃ : Session.Step s₂ s₃ := .define "f" (by decide) hf
  have h₄ : Session.Step s₃ s₄ := .extend (by decide) (by simp [Has])
  have hreachable : s₄.Reachable :=
    (((Relation.ReflTransGen.single h₁).tail h₂).tail h₃).tail h₄
  have hhistory : History [.define 1 "f" (.atom "1"), .child 0, .define 0 "f" f, .closure, .root]
      s₄.store := by
    have hroot : History [.root] s₁.store := History.start.after_newRoot
    have hclosure : History [.closure, .root] s₂.store := hroot.after_makeClosure [] [] 0
    have hdefine : History [.define 0 "f" f, .closure, .root] s₃.store :=
      hclosure.after_define (by decide) "f" f
    exact hdefine.after_extend (by decide) [("f", .atom "1")]
  obtain ⟨-, -, -, hanswers⟩ := environment_invariant hreachable
  refine ⟨s₄, f, hreachable, hhistory, by decide, by decide, ?_, ?_⟩
  · obtain ⟨v, hv, hlookup⟩ := (hanswers _ hhistory 0).2 (by decide) "f" (by decide)
    obtain rfl : f = v := Option.some.inj hv
    exact hlookup
  · obtain ⟨v, hv, hlookup⟩ := (hanswers _ hhistory 1).2 (by decide) "f" (by decide)
    obtain rfl : Value.atom "1" = v := Option.some.inj hv
    exact hlookup

end AtomLisp
