import AtomLisp.Proofs.Frame
import AtomLisp.Proofs.Reachable

/-!
# Lexical scoping

What an application does depends on the scopes that the procedure and its arguments captured, on the
scopes around these, and on what is captured by the closures that are bound there
(`Store.Captures`). It does not depend on any other scope, so the scope it is called from does not
matter: a store mirrors another one that agrees with it on such scopes (`Mirror.stores_of_agree`),
and `lexical_scoping` says that an application does the same in both.
-/

namespace AtomLisp

namespace Store

/-- The scopes that values can get at: those captured by closures within them, the scopes around
these, and those captured by closures within what is bound there. -/
inductive Captures (st : Store) (values : List Value) : ScopeId → Prop where
  | value {v : Value} {head : ClosureHead} {body : List Value} : v ∈ values →
      Value.Occurs (.closure head body) v → Captures st values head.scope
  | parent {s parent : ScopeId} : Captures st values s → st.parent? s = some parent →
      Captures st values parent
  | bound {s : ScopeId} {name : String} {b : Binding} {head : ClosureHead} {body : List Value} :
      Captures st values s → st.binding? s name = some b →
      Value.Occurs (.closure head body) b.held → Captures st values head.scope

/-- All closures within the value capture scopes that exist. -/
def HasScopes (st : Store) (v : Value) : Prop :=
  v.EveryClosure fun head => head.scope < st.nextScope

/-- Parents are older than their children, and all that is bound captures scopes that exist. -/
structure WellFormed (st : Store) : Prop where
  parent_lt (s parent : ScopeId) (h : st.parent? s = some parent) : parent < s
  hasScopes (s : ScopeId) (name : String) (b : Binding) (h : st.binding? s name = some b) :
    st.HasScopes b.held

/-- Scope `s` has the same parent and the same bindings in both stores, and is live in both or in
neither. -/
structure AgreeAt (st st' : Store) (s : ScopeId) : Prop where
  parent_eq : st'.parent? s = st.parent? s
  isLive_eq : st'.isLive s = st.isLive s
  binding_eq (name : String) : st'.binding? s name = st.binding? s name

/-- In a sound store, parents are older, and captured scopes exist. -/
theorem Sound.wellFormed {st : Store} (h : st.Sound) : st.WellFormed :=
  ⟨h.parent_lt, fun s name b hb head body hocc => (h.has s name b hb head body hocc).1⟩

/-- Scopes that neither store has made are the same. -/
theorem AgreeAt.of_nextScope_le {st st' : Store} {s : ScopeId} (h : st.nextScope ≤ s)
    (h' : st'.nextScope ≤ s) : AgreeAt st st' s where
  parent_eq := by rw [parent?_of_nextScope_le st' s h', parent?_of_nextScope_le st s h]
  isLive_eq := by rw [isLive_of_nextScope_le st' s h', isLive_of_nextScope_le st s h]
  binding_eq name := by
    rw [binding?_of_nextScope_le st' s name h', binding?_of_nextScope_le st s name h]

end Store

/-- All stores that a host gets to are well-formed. -/
theorem Session.Reachable.wellFormed {session : Session} (h : session.Reachable) :
    session.store.WellFormed :=
  h.sound.wellFormed

open Store

namespace Mirror

/-- Only those scopes are looked at which the values can get at, and those that will be made. All
numbers stay as they are. -/
def onCaptured (st : Store) (values : List Value) : Mirror where
  numbering := .id
  visible s := st.Captures values s ∨ st.nextScope ≤ s
  foreign _ := True
  known _ := True
  known_false := trivial

variable {st st' : Store} {values : List Value}

@[simp] theorem onCaptured_numbering (st : Store) (values : List Value) :
    (onCaptured st values).numbering = .id := rfl

/-- A scope that is looked at, and exists, is captured. -/
theorem captures_of_visible {s : ScopeId} (hs : (onCaptured st values).visible s)
    (hlt : s < st.nextScope) : st.Captures values s :=
  hs.resolve_right (Nat.not_le_of_lt hlt)

/-- A value is admitted if all that it captures is. -/
theorem admits_onCaptured {v : Value} (hscopes : st.HasScopes v)
    (hcaptures : v.EveryClosure fun head => st.Captures values head.scope) :
    (onCaptured st values).Admits st v :=
  fun head body hocc =>
    ⟨⟨.inl (hcaptures head body hocc), hscopes head body hocc, .inr trivial⟩,
      fun _ _ => .ofAtoms fun _ _ => trivial⟩

/-- A store that agrees with a well-formed one on what the values can get at mirrors it there. -/
theorem stores_of_agree (hst : st.WellFormed) (hnext : st'.nextScope = st.nextScope)
    (hclosures : st'.closures = st.closures)
    (hagree : ∀ s, st.Captures values s → AgreeAt st st' s) :
    (onCaptured st values).Stores st st' where
  nextScope_eq := hnext
  closures_eq := hclosures
  visible_new n hn := .inr hn
  scope_succ n _ := rfl
  closure_succ n _ := rfl
  parent_eq s hs hlt := by
    show st'.parent? s = (st.parent? s).map fun t => t
    rw [Option.map_id', (hagree s (captures_of_visible hs hlt)).parent_eq]
  isLive_eq s hs hlt := (hagree s (captures_of_visible hs hlt)).isLive_eq
  binding_eq s hs hlt name _ := by
    show st'.binding? s name = (st.binding? s name).map (Binding.rename .id)
    have hid : Binding.rename .id = fun b => b := funext Binding.rename_id
    rw [hid, Option.map_id', (hagree s (captures_of_visible hs hlt)).binding_eq]
  parent_visible s parent hs hparent := by
    have hcaptured := captures_of_visible hs (lt_of_parent? hparent)
    exact ⟨.inl (.parent hcaptured hparent), hst.parent_lt s parent hparent⟩
  admits s name b hs hb := by
    refine admits_onCaptured (hst.hasScopes s name b hb) fun head body hocc => ?_
    exact .bound (captures_of_visible hs (lt_of_binding? hb)) hb hocc

/-- The other way round, stores that mirror one another agree on all scopes that are looked at. -/
theorem Stores.agreeAt {st₀ : Store} (h : (onCaptured st₀ values).Stores st st') {s : ScopeId}
    (hs : (onCaptured st₀ values).visible s) : AgreeAt st st' s := by
  by_cases hlt : s < st.nextScope
  · refine ⟨?_, h.isLive_eq s hs hlt, fun name => ?_⟩
    · have hparent := h.parent_eq s hs hlt
      rwa [show (onCaptured st₀ values).numbering.scope = fun t => t from rfl,
        Option.map_id'] at hparent
    · have hbinding := h.binding_eq s hs hlt name trivial
      have hid : Binding.rename .id = fun b => b := funext Binding.rename_id
      rwa [onCaptured_numbering, hid, Option.map_id'] at hbinding
  · have hge : st.nextScope ≤ s := Nat.le_of_not_lt hlt
    exact .of_nextScope_le hge (Nat.le_trans (Nat.le_of_eq h.nextScope_eq) hge)

end Mirror

/-- **Lexical scoping.** Let a procedure be applied in two sessions that have made the same numbers
of scopes and closures, and that agree on all scopes which the procedure and its arguments can get
at. Then it does the same in both: it has the same outcome, writes the same text and emits the same
events, and the stores agree again on these scopes and on all scopes made meanwhile. -/
theorem lexical_scoping (depth : Nat) {session session' : Session} {procedure : Value}
    {args : List Value} (hwf : session.store.WellFormed)
    (hscopes : ∀ v ∈ procedure :: args, session.store.HasScopes v)
    (hnext : session'.store.nextScope = session.store.nextScope)
    (hclosures : session'.store.closures = session.store.closures)
    (hagree : ∀ s, session.store.Captures (procedure :: args) s →
      AgreeAt session.store session'.store s) :
    let call := apply depth procedure args
    call.outcome session' = call.outcome session ∧
    (∃ text events, session.Adds text events (call.after session) ∧
      session'.Adds text events (call.after session')) ∧
    (call.after session').store.nextScope = (call.after session).store.nextScope ∧
    (call.after session').store.closures = (call.after session).store.closures ∧
    ∀ s, session.store.Captures (procedure :: args) s ∨ session.store.nextScope ≤ s →
      AgreeAt (call.after session).store (call.after session').store s := by
  have hstores : (Mirror.onCaptured session.store (procedure :: args)).Stores session.store
      session'.store := Mirror.stores_of_agree hwf hnext hclosures hagree
  have hadmits : ∀ v ∈ procedure :: args,
      (Mirror.onCaptured session.store (procedure :: args)).Admits session.store v :=
    fun v hv => Mirror.admits_onCaptured (hscopes v hv) fun head body hocc => .value hv hocc
  have hlockStep := Mirror.lockStep_apply depth (hadmits procedure List.mem_cons_self)
    fun x hx => hadmits x (List.mem_cons_of_mem _ hx)
  rw [Mirror.onCaptured_numbering, Value.rename_id, Value.map_rename_id] at hlockStep
  have hprogress := hlockStep.progress .refl hstores
  have houtcome := hlockStep.outcome_eq .refl hstores
  refine ⟨?_, hprogress.added, hprogress.stores.nextScope_eq, hprogress.stores.closures_eq,
    fun s hs => hprogress.stores.agreeAt hs⟩
  rw [houtcome]
  cases (apply depth procedure args).outcome session with
  | ok v => exact congrArg Except.ok v.rename_id
  | error stop => exact congrArg Except.error stop.rename_id

/-- A closure over the root is called from a scope where the name it looks up is bound to another
atom, and it is called from one where the name is bound to yet another. It answers with the atom
that the root binds, both times. -/
theorem lexical_scoping_of_shadowed_name :
    ∃ (session session' : Session) (f : Value), session.store.WellFormed ∧
      (∀ v ∈ [f], session.store.HasScopes v) ∧
      session'.store.nextScope = session.store.nextScope ∧
      session'.store.closures = session.store.closures ∧
      (∀ s, session.store.Captures [f] s → AgreeAt session.store session'.store s) ∧
      session.store.lookup 1 "x" = .atom "2" ∧ session'.store.lookup 1 "x" = .atom "3" ∧
      (apply 2 f []).outcome session' = .ok (.atom "1") := by
  let f : Value := .closure { name := none, params := [], scope := 0, id := 0 } [.atom "x"]
  let s₁ : Session := Eval.newRoot.after {}
  let s₂ : Session := (Eval.makeClosure [] [.atom "x"] 0).after s₁
  let s₃ : Session := (Eval.define 0 "x" (.atom "1")).after s₂
  let session : Session := (Eval.extend 0 [("x", .atom "2")]).after s₃
  let session' : Session := (Eval.extend 0 [("x", .atom "3")]).after s₃
  have h₁ : Session.Step {} s₁ := .root {}
  have h₂ : Session.Step s₁ s₂ := .closure [] (by decide) (by simp [Has])
  have h₃ : Session.Step s₂ s₃ := .define "x" (by decide) (Value.everyClosure_atom _)
  have h₄ : Session.Step s₃ session := .extend (by decide) (by simp [Has])
  have hreachable : session.Reachable :=
    (((Relation.ReflTransGen.single h₁).tail h₂).tail h₃).tail h₄
  have hscopes : ∀ v ∈ [f], session.store.HasScopes v := by
    intro v hv
    obtain rfl := List.mem_singleton.1 hv
    exact Value.everyClosure_closure.2 ⟨by decide, by simp⟩
  -- the root is as it was before the scope inside it was opened, and it binds an atom only
  have hroot : Untouched s₃.store session.store := .extend s₃.store 0 _
  have hroot' : Untouched s₃.store session'.store := .extend s₃.store 0 _
  have hbinding : ∀ name b, session.store.binding? 0 name = some b →
      b = .value (.atom "1") := by
    intro name b hb
    rw [hroot.binding?_eq (by decide)] at hb
    have hdefine : (s₂.store.define 0 "x" (.atom "1")).binding? 0 name = some b := hb
    rw [binding?_define] at hdefine
    split at hdefine
    · exact (Option.some.inj hdefine).symm
    · cases hdefine
  have hcaptures : ∀ s, session.store.Captures [f] s → s = 0 := by
    intro s hs
    induction hs with
    | @value v head body hv hocc =>
      obtain rfl := List.mem_singleton.1 hv
      have hf : f.EveryClosure fun head => head.scope = 0 :=
        Value.everyClosure_closure.2 ⟨rfl, by simp⟩
      exact hf head body hocc
    | parent _ hparent ih =>
      obtain rfl := ih
      cases hparent
    | @bound s name b head body _ hb hocc ih =>
      obtain rfl := ih
      obtain rfl := hbinding name b hb
      exact absurd hocc (Value.everyClosure_atom (H := fun _ => False) "1" head body)
  have hagree : ∀ s, session.store.Captures [f] s → AgreeAt session.store session'.store s := by
    intro s hs
    obtain rfl := hcaptures s hs
    refine ⟨rfl, rfl, fun name => ?_⟩
    rw [hroot.binding?_eq (by decide), hroot'.binding?_eq (by decide)]
  have hnext : session'.store.nextScope = session.store.nextScope := rfl
  have hclosures : session'.store.closures = session.store.closures := rfl
  have hwf := hreachable.wellFormed
  have h := lexical_scoping 2 hwf hscopes hnext hclosures hagree
  refine ⟨session, session', f, hwf, hscopes, hnext, hclosures, hagree, ?_, ?_, ?_⟩
  · dsimp only [session, s₃, s₂, s₁]
    with_unfolding_all rfl
  · dsimp only [session', s₃, s₂, s₁]
    with_unfolding_all rfl
  · rw [h.1]
    dsimp only [f, session, s₃, s₂, s₁]
    with_unfolding_all rfl

end AtomLisp
