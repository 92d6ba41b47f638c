import AtomLisp.Eval
import AtomLisp.Proofs.History
import AtomLisp.Proofs.Preservation
import AtomLisp.Proofs.RoundTrip

/-!
# Equality, and values that are passed on

The equality that a program observes is an equivalence, and equality of lists is that of their
elements. A value that is bound, looked up, handed over or returned arrives as a value that is equal
to it: `Passes` lists the ways in which a value is passed on, and `Passes.same` is the result.
-/

namespace AtomLisp

namespace Value

/-! ### Equality is an equivalence -/

/-- Lists are equal element by element. -/
theorem sameAll_iff_forall₂ {xs ys : List Value} :
    sameAll xs ys = true ↔ List.Forall₂ (fun x y => same x y = true) xs ys := by
  induction xs generalizing ys with
  | nil => cases ys <;> simp [sameAll]
  | cons x xs ih => cases ys <;> simp [sameAll, ih]

/-- Equal lists have the same length and equal elements in each place. -/
theorem same_list_iff {xs ys : List Value} :
    same (list xs) (list ys) = true ↔ xs.length = ys.length ∧
      ∀ (i : Nat) (hx : i < xs.length) (hy : i < ys.length), same xs[i] ys[i] = true := by
  rw [same, sameAll_iff_forall₂, List.forall₂_iff_get]
  simp only [List.get_eq_getElem]

theorem same_symm {x y : Value} (h : same x y = true) : same y x = true := by
  induction x generalizing y with
  | atom text => cases y <;> simp_all [same]
  | builtin op => cases y <;> simp_all [same]
  | closure head body _ => cases y <;> simp_all [same]
  | list xs ih =>
    cases y with
    | list ys =>
      obtain ⟨hlength, helements⟩ := same_list_iff.1 h
      refine same_list_iff.2 ⟨hlength.symm, fun i hy hx => ?_⟩
      exact ih xs[i] (List.getElem_mem hx) (helements i hx hy)
    | _ => simp [same] at h

/-- Values that are equal to the same value are equal to each other. -/
theorem same_trans {x y z : Value} (hxy : same x y = true) (hyz : same y z = true) :
    same x z = true := by
  induction x generalizing y z with
  | atom text => cases y <;> cases z <;> simp_all [same]
  | builtin op => cases y <;> cases z <;> simp_all [same]
  | closure head body _ => cases y <;> cases z <;> simp_all [same]
  | list xs ih =>
    cases y with
    | list ys =>
      cases z with
      | list zs =>
        obtain ⟨hlength, helements⟩ := same_list_iff.1 hxy
        obtain ⟨hlength', helements'⟩ := same_list_iff.1 hyz
        refine same_list_iff.2 ⟨hlength.trans hlength', fun i hx hz => ?_⟩
        have hy : i < ys.length := by omega
        exact ih xs[i] (List.getElem_mem hx) (helements i hx hy) (helements' i hy hz)
      | _ => simp [same] at hyz
    | _ => simp [same] at hxy

/-- Binding a value to a name gives an equal one. -/
theorem same_named_self (name : String) (v : Value) : same (v.named name) v = true :=
  (same_named name v v).trans (same_self v)

/-- What is equal to an atom is this atom. -/
theorem beq_atom_iff {x : Value} {text : String} : (x == atom text) = true ↔ x = atom text := by
  have htree : TreeOf (fun _ => True) (atom text) := .atom trivial
  constructor
  · exact fun h => (eq_of_same htree (same_symm h)).symm
  · rintro rfl
    exact same_self _

/-- The equality that a program observes is an equivalence. -/
theorem equivalence_same : Equivalence fun x y : Value => same x y = true :=
  ⟨same_self, same_symm, same_trans⟩

end Value

/-! ### Answers of single scopes -/

namespace Store

variable {st : Store}

/-- What a single scope answers for a name. -/
def answer? (st : Store) (s : ScopeId) (name : String) : Option Value :=
  (st.binding? s name).bind st.resolve

/-- A lookup has the answer of the first scope of the chain that has one. -/
theorem lookup_eq_of_answer {front rest : List ScopeId} {s t : ScopeId} {name : String} {v : Value}
    (hchain : st.chain t = front ++ s :: rest) (hfront : ∀ r ∈ front, st.answer? r name = none)
    (hs : st.answer? s name = some v) : st.lookup t name = v := by
  have hfind : st.find? t name = some v := by
    show (st.chain t).findSome? (fun r => st.answer? r name) = some v
    rw [hchain, List.findSome?_append, List.findSome?_eq_none_iff.2 hfront, List.findSome?_cons, hs]
    rfl
  rw [lookup, hfind, Option.getD_some]

/-- Where the scope itself has an answer, no other scope is asked. -/
theorem lookup_of_answer {s : ScopeId} {name : String} {v : Value}
    (h : st.answer? s name = some v) : st.lookup s name = v := by
  have hchain : ∃ rest, st.chain s = [] ++ s :: rest := ⟨_, chain.eq_1 st s⟩
  obtain ⟨rest, hrest⟩ := hchain
  exact lookup_eq_of_answer hrest (fun r hr => absurd hr List.not_mem_nil) h

/-- If a scope has an answer, it is what the name was last defined as there. -/
theorem History.answer?_eq {changes : List Change} (h : History changes st) {s : ScopeId}
    {name : String} {v u : Value} (hv : latest? s name changes = some v)
    (hu : st.answer? s name = some u) : u = v.named name := by
  obtain ⟨b, hb, hresolve⟩ := Option.bind_eq_some_iff.1 hu
  rw [h.binding?_eq, hv, Option.map_some] at hb
  obtain rfl := Option.some.inj hb
  rw [← ((resolve_eq_some_iff st u).1 hresolve).2, Binding.held_hold]

/-- A scope that has just been opened binds a name to the last value that it was given for it. -/
theorem binding?_extend (scope : ScopeId) (front rest : List (String × Value)) {name : String}
    (v : Value) (hrest : name ∉ rest.map Prod.fst) :
    (st.extend scope (front ++ (name, v) :: rest)).binding? st.nextScope name =
      some (.hold st.nextScope (v.named name)) := by
  let opened := (st.addScope (some scope)).defineAll st.nextScope front
  have hextend : st.extend scope (front ++ (name, v) :: rest) =
      (opened.define st.nextScope name v).defineAll st.nextScope rest :=
    defineAll_append ..
  have hlt : st.nextScope < opened.nextScope := by simp [opened]
  rw [hextend, binding?_defineAll_of_notMem _ _ _ _ hrest, binding?_define,
    if_pos ⟨rfl, hlt, rfl⟩]

theorem isLive_extend_self (scope : ScopeId) (bindings : List (String × Value)) :
    (st.extend scope bindings).isLive st.nextScope = true := by
  rw [extend, isLive_defineAll, isLive_addScope, if_pos rfl]

/-- A new scope is live, so it answers with the value that it was given. -/
theorem answer?_extend (scope : ScopeId) (front rest : List (String × Value)) {name : String}
    (v : Value) (hrest : name ∉ rest.map Prod.fst) :
    (st.extend scope (front ++ (name, v) :: rest)).answer? st.nextScope name =
      some (v.named name) := by
  rw [answer?, binding?_extend scope front rest v hrest, Option.bind_some,
    resolve_hold _ (isLive_extend_self scope _)]

/-- A new scope answers with the last of the values that it was given for a name. -/
theorem lookup_extend (scope : ScopeId) (front rest : List (String × Value)) {name : String}
    (v : Value) (hrest : name ∉ rest.map Prod.fst) :
    (st.extend scope (front ++ (name, v) :: rest)).lookup st.nextScope name = v.named name :=
  lookup_of_answer (answer?_extend scope front rest v hrest)

end Store

/-! ### Values that are passed on -/

/-- The last expression of a sequence comes after all others. -/
theorem Evaluator.sequence_append_singleton (ev : Evaluator Eval) (exprs : List Value)
    (expr : Value) (s : ScopeId) :
    ev.sequence (exprs ++ [expr]) s = ev.sequence exprs s >>= fun _ => ev expr s := by
  rw [sequence, List.foldlM_append, sequence]
  refine congrArg (fun next => List.foldlM (fun _ x => ev x s) .nil exprs >>= next) ?_
  funext v
  rw [List.foldlM_cons]
  exact bind_pure (ev expr s)

/-- The second value is what arrives when the first one is passed on once. -/
inductive Passes : Value → Value → Prop where
  /-- A definition has the value as it is bound. -/
  | define {s : ScopeId} {name : String} {v u : Value} {session : Session} :
      (Eval.define s name v).outcome session = .ok u → Passes v u
  /-- A name that was last defined as `v` in scope `s` is looked up from any scope `t`, where no
  scope on the way to `s` has an answer. -/
  | lookup {changes : List Store.Change} {front rest : List ScopeId} {s t : ScopeId}
      {name : String} {v u : Value} {session : Session} :
      Store.History changes session.store → Store.latest? s name changes = some v →
      session.store.chain t = front ++ s :: rest →
      (∀ r ∈ front, session.store.answer? r name = none) →
      (session.store.answer? s name).isSome → (Eval.lookup t name).outcome session = .ok u →
      Passes v u
  /-- A parameter stands for the argument it was bound to last. -/
  | argument {scope t : ScopeId} {front rest : List (String × Value)} {name : String} {v u : Value}
      {session : Session} : name ∉ rest.map Prod.fst →
      (Eval.extend scope (front ++ (name, v) :: rest)).outcome session = .ok t →
      (Eval.lookup t name).outcome
        ((Eval.extend scope (front ++ (name, v) :: rest)).after session) = .ok u → Passes v u
  /-- Forms evaluated in order have the value of the last one. -/
  | last {ev : Evaluator Eval} {exprs : List Value} {expr v u : Value} {s : ScopeId}
      {session : Session} : (ev expr s).outcome ((ev.sequence exprs s).after session) = .ok v →
      (ev.sequence (exprs ++ [expr]) s).outcome session = .ok u → Passes v u
  /-- An application returns the value of the body, evaluated in a new scope that binds the
  arguments. -/
  | result {ev : Evaluator Eval} {head : ClosureHead} {body args : List Value} {t : ScopeId}
      {v u : Value} {session entered : Session} :
      (Eval.emit (.applyClosure head.name args.length)).after session = entered →
      (Eval.extend head.scope (head.params.zip args)).outcome entered = .ok t →
      (ev.sequence body t).outcome
        ((Eval.extend head.scope (head.params.zip args)).after entered) = .ok v →
      (ev.apply (.closure head body) args).outcome session = .ok u → Passes v u

namespace Passes

/-- A value that is passed on is the same value, or the same closure under a name. -/
theorem eq_or_eq_named {v u : Value} (h : Passes v u) : u = v ∨ ∃ name, u = v.named name := by
  cases h with
  | @define s name v u session hu =>
    exact .inr ⟨name, (Except.ok.inj hu).symm⟩
  | @lookup changes front rest s t name v u session hhistory hv hchain hfront hs hu =>
    obtain ⟨answer, hanswer⟩ := Option.isSome_iff_exists.1 hs
    have hlookup : session.store.lookup t name = u := Except.ok.inj hu
    refine .inr ⟨name, ?_⟩
    rw [← hlookup, Store.lookup_eq_of_answer hchain hfront hanswer]
    exact hhistory.answer?_eq hv hanswer
  | @argument scope t front rest name v u session hrest ht hu =>
    obtain rfl : session.store.nextScope = t := Except.ok.inj ht
    have hlookup : (session.store.extend scope (front ++ (name, v) :: rest)).lookup
        session.store.nextScope name = u := Except.ok.inj hu
    exact .inr ⟨name, hlookup.symm.trans (Store.lookup_extend scope front rest v hrest)⟩
  | @last ev exprs expr v u s session hv hu =>
    rw [Evaluator.sequence_append_singleton] at hu
    obtain ⟨_, -, hlast⟩ := Eval.outcome_bind_eq_ok hu
    rw [hv] at hlast
    exact .inl (Except.ok.inj hlast).symm
  | @result ev head body args t v u session entered hentered ht hv hu =>
    change (ev.applyClosure head body args).outcome session = .ok u at hu
    rw [Evaluator.applyClosure] at hu
    by_cases hlength : head.params.length = args.length
    · simp only [if_pos hlength, Steps.step_eq, Steps.extend_eq] at hu
      obtain ⟨_, -, hopened⟩ := Eval.outcome_bind_eq_ok hu
      obtain ⟨t', ht', hbody⟩ := Eval.outcome_bind_eq_ok hopened
      rw [hentered] at ht' hbody
      obtain rfl := Except.ok.inj (ht.symm.trans ht')
      exact .inl (Except.ok.inj (hv.symm.trans hbody)).symm
    · rw [if_neg hlength] at hu
      cases hu

/-- A value that is passed on is equal to the one it was. -/
theorem same {v u : Value} (h : Passes v u) : Value.same v u = true := by
  obtain rfl | ⟨name, rfl⟩ := h.eq_or_eq_named
  · exact same_self u
  · exact Value.same_symm (Value.same_named_self name v)

end Passes

end AtomLisp
