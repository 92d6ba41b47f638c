import AtomLisp.Proofs.Equality

/-!
# Shadowing

A name that is defined in a scope is seen from this scope and from all scopes inside it, except
where a scope in between has an answer of its own. No other lookup changes. A scope that is opened
with some bindings answers for these, and for all other names like the scope around it.

The scopes in between are those on the way from one scope to another (`Store.Way`), and ways are the
beginnings of chains (`Store.Way.exists_chain`, `Store.way_of_chain`). `lookups_obey_shadowing`
collects what a definition and a new scope change, in every store whose scopes form a forest.

Which scopes are live is a matter of the store, and neither a definition nor a new scope changes it
for a scope that exists. So a weakly held closure whose scope is gone is passed over before and
after.
-/

namespace AtomLisp

namespace Store

/-- The scopes of the store form a forest, in which parents are older than their children, and what
is held weakly is a closure over a scope that has been made. That scope need not be live. -/
structure IsForest (st : Store) : Prop where
  parent_lt (s parent : ScopeId) (h : st.parent? s = some parent) : parent < s
  weak_lt (s : ScopeId) (name : String) (head : ClosureHead) (body : List Value)
    (h : st.binding? s name = some (.weak head body)) : head.scope < st.nextScope

/-- The scopes on the way from one scope up to another one around it, which is not among them. -/
inductive Way (st : Store) : ScopeId → List ScopeId → ScopeId → Prop where
  | here (s : ScopeId) : Way st s [] s
  | up {s parent e : ScopeId} {way : List ScopeId} : st.parent? s = some parent →
      Way st parent way e → Way st s (s :: way) e

/-- Scope `e` is `d` or is around it, and no scope on the way has an answer for the name. -/
def Sees (st : Store) (d e : ScopeId) (name : String) : Prop :=
  ∃ way, st.Way d way e ∧ ∀ t ∈ way, st.answer? t name = none

variable {st st' : Store} {s t d e : ScopeId} {name key : String}

/-! ### Ways and chains -/

/-- The ways that start at a scope are the beginnings of its chain. -/
theorem Way.exists_chain (hst : ∀ s parent, st.parent? s = some parent → parent < s)
    {way : List ScopeId} (h : st.Way d way e) : ∃ rest, st.chain d = way ++ e :: rest := by
  induction h with
  | here s => exact ⟨_, chain_eq_cons st hst s⟩
  | @up s parent e way hparent _ ih =>
    obtain ⟨rest, hrest⟩ := ih
    refine ⟨rest, ?_⟩
    rw [chain_eq_cons st hst, hparent, Option.elim_some, hrest, List.cons_append]

/-- Every beginning of a chain is a way. -/
theorem way_of_chain (hst : ∀ s parent, st.parent? s = some parent → parent < s)
    {way rest : List ScopeId} (h : st.chain d = way ++ e :: rest) : st.Way d way e := by
  induction way generalizing d with
  | nil =>
    rw [chain_eq_cons st hst, List.nil_append] at h
    obtain ⟨rfl, -⟩ := List.cons.inj h
    exact .here d
  | cons s way ih =>
    rw [chain_eq_cons st hst, List.cons_append] at h
    obtain ⟨rfl, hrest⟩ := List.cons.inj h
    cases hparent : st.parent? d with
    | none =>
      rw [hparent, Option.elim_none] at hrest
      exact absurd hrest.symm (List.append_ne_nil_of_right_ne_nil way (List.cons_ne_nil e rest))
    | some parent =>
      rw [hparent, Option.elim_some] at hrest
      exact .up hparent (ih hrest)

/-- The way goes down in age, so it does not come by the scope it leads to. -/
theorem Way.lt_of_mem (hst : ∀ s parent, st.parent? s = some parent → parent < s)
    {way : List ScopeId} (h : st.Way d way e) : e ≤ d ∧ ∀ t ∈ way, e < t := by
  induction h with
  | here s => exact ⟨Nat.le_refl s, fun t ht => absurd ht List.not_mem_nil⟩
  | @up s parent e way hparent _ ih =>
    have hlt : e < s := Nat.lt_of_le_of_lt ih.1 (hst s parent hparent)
    exact ⟨Nat.le_of_lt hlt, List.forall_mem_cons.2 ⟨hlt, ih.2⟩⟩

/-- No scope of a chain is newer than the first. -/
theorem le_of_mem_chain (h : t ∈ st.chain s) : t ≤ s := by
  induction s using Nat.strongRecOn with
  | _ s ih =>
    rw [chain] at h
    rcases List.mem_cons.1 h with rfl | h
    · exact Nat.le_refl t
    · split at h
      · next parent _ =>
        split at h
        · next hlt => exact Nat.le_trans (ih parent hlt h) (Nat.le_of_lt hlt)
        · cases h
      · cases h

/-- A chain depends on the parents of the scope and of older ones only. -/
theorem chain_congr (h : ∀ t ≤ s, st'.parent? t = st.parent? t) : st'.chain s = st.chain s := by
  induction s using Nat.strongRecOn with
  | _ s ih =>
    rw [chain, chain, h s (Nat.le_refl s)]
    cases st.parent? s with
    | none => rfl
    | some parent =>
      by_cases hlt : parent < s
      · have hrest := ih parent hlt fun t ht => h t (Nat.le_trans ht (Nat.le_of_lt hlt))
        simp only [if_pos hlt, hrest]
      · simp only [if_neg hlt]

/-! ### What a lookup depends on -/

/-- A lookup takes the first answer along the chain. -/
theorem lookup_eq_findSome? (st : Store) (s : ScopeId) (name : String) :
    st.lookup s name = ((st.chain s).findSome? fun t => st.answer? t name).getD (unbound name) :=
  rfl

/-- A root answers itself, or else the name stands for what it stands for unbound. -/
theorem lookup_of_root (h : st.parent? s = none) :
    st.lookup s name = (st.answer? s name).getD (unbound name) := by
  rw [lookup_eq_findSome?, chain_of_root h, List.findSome?_singleton]

/-- Every other scope answers itself, or else the scope around it is asked. -/
theorem lookup_of_parent {parent : ScopeId} (h : st.parent? s = some parent) (hlt : parent < s) :
    st.lookup s name = (st.answer? s name).getD (st.lookup parent name) := by
  rw [lookup_eq_findSome?, chain_of_parent h hlt, List.findSome?_cons, lookup_eq_findSome?]
  cases st.answer? s name <;> rfl

theorem findSome?_congr {α β : Type} {f g : α → Option β} {xs : List α}
    (h : ∀ x ∈ xs, f x = g x) : xs.findSome? f = xs.findSome? g := by
  induction xs with
  | nil => rfl
  | cons x xs ih =>
    rw [List.findSome?_cons, List.findSome?_cons, h x List.mem_cons_self,
      ih fun y hy => h y (List.mem_cons_of_mem x hy)]

/-- Lookups are the same where chains and answers are. -/
theorem lookup_congr (hchain : st'.chain s = st.chain s)
    (hanswer : ∀ t ∈ st.chain s, st'.answer? t name = st.answer? t name) :
    st'.lookup s name = st.lookup s name := by
  rw [lookup_eq_findSome?, lookup_eq_findSome?, hchain, findSome?_congr hanswer]

/-- Where no scope of the chain has an answer, the name stands for what it stands for unbound. -/
theorem lookup_of_no_answer (h : ∀ t ∈ st.chain s, st.answer? t name = none) :
    st.lookup s name = unbound name := by
  rw [lookup_eq_findSome?, List.findSome?_eq_none_iff.2 h, Option.getD_none]

/-- A scope that does not bind a name has no answer for it. -/
theorem answer?_of_binding?_eq_none (h : st.binding? s name = none) :
    st.answer? s name = none := by
  rw [answer?, h, Option.bind_none]

/-- A name of an operation stands for it if it is not bound. -/
theorem unbound_of_name_eq {op : Builtin} (h : op.name = name) : unbound name = .builtin op := by
  rw [unbound, Builtin.ofName?_eq_some_iff.2 h]

/-- Any other name stands for itself if it is not bound. -/
theorem unbound_of_notMem_names (h : name ∉ Builtin.names) : unbound name = .atom name := by
  rw [unbound, Builtin.ofName?_eq_none_iff.2 h]

/-! ### Defining a name -/

section Define

variable (v : Value)

@[simp] theorem chain_define : (st.define e name v).chain s = st.chain s :=
  chain_congr fun _ _ => parent?_define ..

@[simp] theorem resolve_define (b : Binding) : (st.define e name v).resolve b = st.resolve b := by
  cases b with
  | value u => rfl
  | weak head body => rw [resolve, resolve, isLive_define]

/-- A definition in one scope changes no answer of another one, and no answer for another name. -/
theorem answer?_define_of_ne (h : ¬ (t = e ∧ key = name)) :
    (st.define e name v).answer? t key = st.answer? t key := by
  have hbinding : (st.define e name v).binding? t key = st.binding? t key := by
    rw [binding?_define, if_neg fun hc => h ⟨hc.1.symm, hc.2.2⟩]
  rw [answer?, answer?, hbinding]
  exact congrArg _ (funext fun b => resolve_define v b)

variable (he : e < st.nextScope)
  (hlive : ∀ head body, v = .closure head body → head.scope = e → st.isLive e = true)
include he hlive

/-- The scope itself answers with the value as it is bound. A closure over this very scope is held
weakly, but then the scope is live. -/
theorem answer?_define_self : (st.define e name v).answer? e name = some (v.named name) := by
  have hbinding : (st.define e name v).binding? e name = some (.hold e (v.named name)) := by
    rw [binding?_define, if_pos ⟨rfl, he, rfl⟩]
  rw [answer?, hbinding, Option.bind_some, resolve_define]
  cases v with
  | closure head body =>
    by_cases hscope : head.scope = e
    · exact resolve_hold st (hlive head body rfl hscope) _
    · rw [Value.named, Binding.hold, if_neg hscope]
      rfl
  | _ => rfl

/-- From where the scope is seen, the name now stands for the value. -/
theorem lookup_define_of_sees (hst : st.IsForest) (hsees : st.Sees d e name) :
    (st.define e name v).lookup d name = v.named name := by
  obtain ⟨way, hway, hsilent⟩ := hsees
  obtain ⟨rest, hchain⟩ := hway.exists_chain hst.parent_lt
  have hlt := (hway.lt_of_mem hst.parent_lt).2
  refine lookup_eq_of_answer ((chain_define v).trans hchain) (fun t ht => ?_)
    (answer?_define_self v he hlive)
  rw [answer?_define_of_ne v fun hc => Nat.ne_of_gt (hlt t ht) hc.1]
  exact hsilent t ht

omit he hlive

/-- All other lookups are as before: of other names, and from where the scope is not seen. -/
theorem lookup_define_of_not_sees (hst : st.IsForest) (h : ¬ (key = name ∧ st.Sees d e name)) :
    (st.define e name v).lookup d key = st.lookup d key := by
  by_cases hkey : key = name
  · subst hkey
    by_cases hmem : e ∈ st.chain d
    · -- the first scope of the chain that answers comes before `e`
      obtain ⟨way, rest, hchain, hway⟩ := List.eq_append_cons_of_mem hmem
      have hanswers : ∃ t ∈ way, st.answer? t key ≠ none := by
        by_contra hsilent
        push Not at hsilent
        exact h ⟨rfl, way, way_of_chain hst.parent_lt hchain, hsilent⟩
      have hsome : (way.findSome? fun t => st.answer? t key) ≠ none := by
        obtain ⟨t, ht, hne⟩ := hanswers
        exact fun hnone => hne (List.findSome?_eq_none_iff.1 hnone t ht)
      have hsame : (way.findSome? fun t => (st.define e key v).answer? t key) =
          way.findSome? fun t => st.answer? t key :=
        findSome?_congr fun t ht => answer?_define_of_ne v fun hc => hway (hc.1 ▸ ht)
      obtain ⟨u, hu⟩ := Option.ne_none_iff_exists'.1 hsome
      rw [lookup_eq_findSome?, lookup_eq_findSome?, chain_define, hchain, List.findSome?_append,
        List.findSome?_append, hsame, hu]
      rfl
    · refine lookup_congr (chain_define v) fun t ht => ?_
      exact answer?_define_of_ne v fun hc => hmem (hc.1 ▸ ht)
  · exact lookup_congr (chain_define v) fun t _ => answer?_define_of_ne v fun hc => hkey hc.2

end Define

/-! ### Opening a scope -/

section Extend

variable (bindings : List (String × Value))

@[simp] theorem parent?_defineAll : (st.defineAll s bindings).parent? t = st.parent? t := by
  induction bindings generalizing st with
  | nil => rfl
  | cons binding rest ih => rw [defineAll_cons, ih, parent?_define]

/-- The scope around a new one is the one that it was opened in. -/
theorem parent?_extend_self : (st.extend s bindings).parent? st.nextScope = some s := by
  rw [extend, parent?_defineAll, parent?_addScope, if_pos rfl]

/-- A new scope binds only the names that it was given. -/
theorem binding?_extend_of_notMem (hname : name ∉ bindings.map Prod.fst) :
    (st.extend s bindings).binding? st.nextScope name = none := by
  rw [extend, binding?_defineAll_of_notMem _ _ _ _ hname, binding?_addScope,
    binding?_of_nextScope_le _ _ _ (Nat.le_refl _)]

variable (hst : st.IsForest)
include hst

/-- A scope that exists has the answers that it had. -/
theorem answer?_extend_of_lt (ht : t < st.nextScope) :
    (st.extend s bindings).answer? t name = st.answer? t name := by
  have hscope : (st.extend s bindings).scopes[t]? = st.scopes[t]? :=
    scopes_extend_of_lt st bindings ht
  rw [answer?, answer?, binding?, binding?, hscope]
  change (st.binding? t name).bind _ = (st.binding? t name).bind _
  cases hb : st.binding? t name with
  | none => rfl
  | some b =>
    cases b with
    | value u => rfl
    | weak head body =>
      -- the closure is over a scope that has been made, so it is not brought back to life
      have hlt := hst.weak_lt t name head body hb
      rw [Option.bind_some, Option.bind_some, resolve, resolve, isLive, isLive,
        scopes_extend_of_lt st bindings hlt]

/-- What is looked up from a scope that exists is as before. -/
theorem lookup_extend_of_lt (ht : t < st.nextScope) :
    (st.extend s bindings).lookup t name = st.lookup t name := by
  have hparent : ∀ r ≤ t, (st.extend s bindings).parent? r = st.parent? r := by
    intro r hr
    rw [parent?, parent?, scopes_extend_of_lt st bindings (Nat.lt_of_le_of_lt hr ht)]
  refine lookup_congr (chain_congr hparent) fun r hr => answer?_extend_of_lt bindings hst ?_
  exact Nat.lt_of_le_of_lt (le_of_mem_chain hr) ht

/-- The new scope answers for a name without a binding like the scope around it. -/
theorem lookup_extend_of_notMem (hs : s < st.nextScope) (hname : name ∉ bindings.map Prod.fst) :
    (st.extend s bindings).lookup st.nextScope name = st.lookup s name := by
  have hsilent : (st.extend s bindings).answer? st.nextScope name = none :=
    answer?_of_binding?_eq_none (binding?_extend_of_notMem bindings hname)
  rw [lookup_of_parent (parent?_extend_self bindings) hs, hsilent, Option.getD_none]
  exact lookup_extend_of_lt bindings hst hs

end Extend

end Store

open Store

/-- **Lookups obey shadowing.** Let the scopes of a store form a forest, in which some scopes need
not be live.

A value that is bound takes the name if it is a closure without one, and is bound as it is
otherwise. After a definition in scope `e`, the name stands for the value as it was bound from `e`
and from all scopes inside it, as long as no scope on the way has an answer of its own; all other
lookups have the result that they had before. The scope of a closure that is at hand is live, so a
closure over `e` can only be defined there if `e` is.

If no scope of the chain has an answer, a name stands for the operation of that name, or else for
itself. A scope that is opened answers for a name with the last of the bindings that it is given,
and like the scope around it if there is none; all scopes that were there before it bind what they
bound and answer what they answered. -/
theorem lookups_obey_shadowing {session : Session} (hst : session.store.IsForest) :
    (∀ (name : String) (v : Value),
      (∀ head body, v = .closure head body → head.name = none →
        v.named name = .closure { head with name := some name } body) ∧
      ((∀ head body, v = .closure head body → head.name ≠ none) → v.named name = v)) ∧
    (∀ (e : ScopeId) (name : String) (v : Value), e < session.store.nextScope →
      (∀ head body, v = .closure head body → head.scope = e →
        session.store.isLive e = true) →
      let later := (Eval.define e name v).after session
      (Eval.define e name v).outcome session = .ok (v.named name) ∧
      ∀ (d : ScopeId) (key : String),
        (key = name ∧ session.store.Sees d e name → later.store.lookup d key = v.named name) ∧
        (¬ (key = name ∧ session.store.Sees d e name) →
          later.store.lookup d key = session.store.lookup d key)) ∧
    (∀ (d : ScopeId) (name : String),
      (∀ way t, session.store.Way d way t → session.store.answer? t name = none) →
      (∀ op : Builtin, op.name = name → session.store.lookup d name = .builtin op) ∧
      (name ∉ Builtin.names → session.store.lookup d name = .atom name)) ∧
    (∀ (s : ScopeId) (bindings : List (String × Value)), s < session.store.nextScope →
      let child := session.store.nextScope
      let later := (Eval.extend s bindings).after session
      (Eval.extend s bindings).outcome session = .ok child ∧
      later.store.parent? child = some s ∧
      (∀ front name v rest, bindings = front ++ (name, v) :: rest →
        name ∉ rest.map Prod.fst → later.store.lookup child name = v.named name) ∧
      (∀ name, name ∉ bindings.map Prod.fst →
        later.store.lookup child name = session.store.lookup s name) ∧
      ∀ t name, t < session.store.nextScope →
        later.store.binding? t name = session.store.binding? t name ∧
        later.store.lookup t name = session.store.lookup t name) := by
  refine ⟨fun name v => ⟨?_, fun hnamed => ?_⟩,
    fun e name v he hlive => ⟨rfl, fun d key => ?_⟩, fun d name hsilent => ?_,
    fun s bindings hs => ⟨rfl, ?_, ?_, ?_, fun t name ht => ⟨?_, ?_⟩⟩⟩
  · rintro head body rfl hname
    rw [Value.named, hname]
    rfl
  · cases v with
    | closure head body =>
      obtain ⟨key, hkey⟩ := Option.ne_none_iff_exists'.1 (hnamed head body rfl)
      obtain ⟨_, params, scope, id⟩ := head
      obtain rfl : _ = some key := hkey
      rfl
    | _ => rfl
  · refine ⟨?_, fun h => lookup_define_of_not_sees v hst h⟩
    rintro ⟨rfl, hsees⟩
    exact lookup_define_of_sees v he hlive hst hsees
  · have hunbound : session.store.lookup d name = unbound name := by
      refine lookup_of_no_answer fun t ht => ?_
      obtain ⟨way, rest, hchain⟩ := List.append_of_mem ht
      exact hsilent way t (way_of_chain hst.parent_lt hchain)
    rw [hunbound]
    exact ⟨fun op => unbound_of_name_eq, unbound_of_notMem_names⟩
  · exact parent?_extend_self bindings
  · rintro front name v rest rfl hrest
    exact lookup_extend s front rest v hrest
  · exact fun name hname => lookup_extend_of_notMem bindings hst hs hname
  · show (session.store.extend s bindings).binding? t name = session.store.binding? t name
    rw [binding?, scopes_extend_of_lt session.store bindings ht, binding?]
  · exact lookup_extend_of_lt bindings hst ht

/-- A root is around a scope that binds a name to a closure over a third scope, which is gone. When
the root defines the name, the inner scope passes over its own binding and sees the new one. -/
theorem shadowing_of_released_scope :
    ∃ session : Session, session.store.IsForest ∧ session.store.isBound 1 "x" = true ∧
      session.store.lookup 1 "x" = .atom "x" ∧
      ((Eval.define 0 "x" (.atom "2")).after session).store.lookup 1 "x" = .atom "2" := by
  let head : ClosureHead := { name := some "x", params := [], scope := 2, id := 0 }
  let family : Store := ((Store.addScope {} none).addScope (some 0)).addScope (some 0)
  let session : Session := { store := (family.bind 1 "x" (.weak head [])).release 2 }
  have hbinding : ∀ s name b, session.store.binding? s name = some b → b = .weak head [] := by
    intro s name b hb
    rw [show session.store.binding? s name =
        (family.bind 1 "x" (.weak head [])).binding? s name from
      binding?_release .., binding?_bind] at hb
    split at hb
    · exact (Option.some.inj hb).symm
    · rw [binding?_addScope, binding?_addScope, binding?_addScope,
        binding?_of_nextScope_le _ _ _ (Nat.zero_le s)] at hb
      cases hb
  have hst : session.store.IsForest := by
    refine ⟨fun s parent hparent => ?_, fun s name head' body hb => ?_⟩
    · match s with
      | 0 => cases hparent
      | 1 => cases hparent; exact Nat.zero_lt_one
      | 2 => cases hparent; exact Nat.zero_lt_two
      | s + 3 =>
        rw [parent?_of_nextScope_le _ _ (Nat.le_add_left 3 s)] at hparent
        cases hparent
    · cases hbinding s name _ hb
      decide
  have hsilent : ∀ t ∈ [1], session.store.answer? t "x" = none := by
    intro t ht
    obtain rfl := List.mem_singleton.1 ht
    rfl
  have hsees : session.store.Sees 1 0 "x" := ⟨[1], .up rfl (.here 0), hsilent⟩
  obtain ⟨-, hdefine, hunbound, -⟩ := lookups_obey_shadowing hst
  refine ⟨session, hst, rfl, ?_, ?_⟩
  · refine (hunbound 1 "x" fun way t hway => ?_).2 (by decide)
    cases hb : session.store.binding? t "x" with
    | none => rw [answer?, hb, Option.bind_none]
    | some b =>
      obtain rfl := hbinding t "x" b hb
      rw [answer?, hb]
      rfl
  · have hatom : ∀ head body, Value.atom "2" = .closure head body → head.scope = 0 →
        session.store.isLive 0 = true := by
      rintro head body ⟨⟩
    exact ((hdefine 0 "x" (.atom "2") (by decide) hatom).2 1 "x").1 ⟨rfl, hsees⟩

end AtomLisp
