import AtomLisp.Store

/-!
# What the operations on a store change

A store is asked four things about a scope: which scope is around it, whether it is live, what it
binds, and whether it exists at all. For every operation it is stated here what it changes in the
answers, so that nothing after this file has to look into the array of scopes. An operation says
what it sets (`Store.binding?_define`, `Store.parent?_addScope`), and all other scopes stay as they
are (`Store.scopes_define_of_ne`, `Store.scopes_extend_of_lt`).

A binding that does not dangle answers with what was bound (`Store.resolve_eq_some_iff`). What is
true of all that is bound, in hidden bindings as well, is `Store.EveryBinding`, with a rule for each
operation.
-/

namespace AtomLisp

namespace Store

variable (st : Store) (s t : ScopeId) (name key : String) (v : Value)

/-! ### Binding a name -/

@[simp] theorem nextScope_bind (b : Binding) : (st.bind s name b).nextScope = st.nextScope := by
  simp [bind, nextScope]

/-- To bind a name changes the bindings of one scope. -/
theorem scopes_bind (b : Binding) :
    (st.bind s name b).scopes[t]? = if s = t then
      st.scopes[t]?.map fun scope => { scope with bindings := scope.bindings.insert name b }
      else st.scopes[t]? := by
  simp [bind, Array.getElem?_modify]

@[simp] theorem parent?_bind (b : Binding) : (st.bind s name b).parent? t = st.parent? t := by
  unfold parent?
  rw [scopes_bind]
  split
  · cases st.scopes[t]? <;> rfl
  · rfl

@[simp] theorem isLive_bind (b : Binding) : (st.bind s name b).isLive t = st.isLive t := by
  unfold isLive
  rw [scopes_bind]
  split
  · cases st.scopes[t]? <;> rfl
  · rfl

/-- A scope that exists binds the name to what it is given, and all else as before. -/
theorem binding?_bind (b : Binding) :
    (st.bind s name b).binding? t key =
      if s = t ∧ t < st.nextScope ∧ key = name then some b else st.binding? t key := by
  unfold binding?
  rw [scopes_bind]
  by_cases hst : s = t
  · by_cases ht : t < st.nextScope
    · obtain ⟨scope, hget⟩ : ∃ scope, st.scopes[t]? = some scope :=
        ⟨_, Array.getElem?_eq_getElem ht⟩
      simp [hst, ht, hget, Bindings.get?_insert]
    · have hnone : st.scopes[t]? = none := Array.getElem?_eq_none (Nat.le_of_not_lt ht)
      simp [hst, ht, hnone]
  · simp [hst]

/-! ### Defining a name -/

@[simp] theorem nextScope_define : (st.define s name v).nextScope = st.nextScope :=
  nextScope_bind ..

@[simp] theorem closures_define : (st.define s name v).closures = st.closures := rfl

@[simp] theorem parent?_define : (st.define s name v).parent? t = st.parent? t :=
  parent?_bind ..

@[simp] theorem isLive_define : (st.define s name v).isLive t = st.isLive t :=
  isLive_bind ..

/-- A name that is defined is held as `Binding.hold` says; all other bindings stay. -/
theorem binding?_define :
    (st.define s name v).binding? t key =
      if s = t ∧ t < st.nextScope ∧ key = name then some (.hold s (v.named name))
      else st.binding? t key :=
  binding?_bind ..

/-- A definition leaves all other scopes as they are. -/
theorem scopes_define_of_ne {s t : ScopeId} (h : t ≠ s) :
    (st.define s name v).scopes[t]? = st.scopes[t]? := by
  rw [define, scopes_bind, if_neg (Ne.symm h)]

/-! ### Adding a scope -/

variable (parent : Option ScopeId)

@[simp] theorem nextScope_addScope : (st.addScope parent).nextScope = st.nextScope + 1 := by
  simp [addScope, nextScope]

/-- A scope that is added stands behind all others. -/
theorem scopes_addScope :
    (st.addScope parent).scopes[t]? =
      if t = st.nextScope then some { parent } else st.scopes[t]? :=
  Array.getElem?_push

/-- The scope that is added has the parent that it is given. -/
theorem parent?_addScope :
    (st.addScope parent).parent? t = if t = st.nextScope then parent else st.parent? t := by
  unfold parent?
  rw [scopes_addScope]
  split <;> rfl

theorem isLive_addScope :
    (st.addScope parent).isLive t = if t = st.nextScope then true else st.isLive t := by
  unfold isLive
  rw [scopes_addScope]
  split <;> rfl

/-- Scopes that have not been made do not exist. -/
theorem scopes_of_nextScope_le (h : st.nextScope ≤ t) : st.scopes[t]? = none :=
  Array.getElem?_eq_none h

theorem binding?_of_nextScope_le (h : st.nextScope ≤ t) : st.binding? t key = none := by
  rw [binding?, scopes_of_nextScope_le st t h, Option.bind_none]

theorem parent?_of_nextScope_le (h : st.nextScope ≤ t) : st.parent? t = none := by
  rw [parent?, scopes_of_nextScope_le st t h, Option.bind_none]

theorem isLive_of_nextScope_le (h : st.nextScope ≤ t) : st.isLive t = false := by
  rw [isLive, scopes_of_nextScope_le st t h, Option.any_none]

/-- Only a scope that exists has a scope around it, binds anything or is live. -/
theorem lt_of_parent? {st : Store} {s parent : ScopeId} (h : st.parent? s = some parent) :
    s < st.nextScope := by
  refine Nat.lt_of_not_le fun hle => ?_
  rw [parent?_of_nextScope_le st s hle] at h
  cases h

theorem lt_of_binding? {st : Store} {s : ScopeId} {name : String} {b : Binding}
    (h : st.binding? s name = some b) : s < st.nextScope := by
  refine Nat.lt_of_not_le fun hle => ?_
  rw [binding?_of_nextScope_le st s name hle] at h
  cases h

theorem lt_of_isLive {st : Store} {s : ScopeId} (h : st.isLive s = true) : s < st.nextScope := by
  refine Nat.lt_of_not_le fun hle => ?_
  rw [isLive_of_nextScope_le st s hle] at h
  cases h

/-- A new scope binds nothing. -/
@[simp] theorem binding?_addScope : (st.addScope parent).binding? t key = st.binding? t key := by
  by_cases h : t = st.nextScope
  · rw [binding?_of_nextScope_le st t key (Nat.le_of_eq h.symm)]
    rw [binding?, scopes_addScope, if_pos h]
    rfl
  · rw [binding?, scopes_addScope, if_neg h, binding?]

/-! ### Defining several names, and opening a scope -/

@[simp] theorem defineAll_cons (bindings : List (String × Value)) :
    st.defineAll s ((name, v) :: bindings) = (st.define s name v).defineAll s bindings := rfl

variable (bindings : List (String × Value))

@[simp] theorem nextScope_defineAll : (st.defineAll s bindings).nextScope = st.nextScope := by
  induction bindings generalizing st with
  | nil => rfl
  | cons binding rest ih => rw [defineAll_cons, ih, nextScope_define]

@[simp] theorem closures_defineAll : (st.defineAll s bindings).closures = st.closures := by
  induction bindings generalizing st with
  | nil => rfl
  | cons binding rest ih => rw [defineAll_cons, ih, closures_define]

@[simp] theorem isLive_defineAll : (st.defineAll s bindings).isLive t = st.isLive t := by
  induction bindings generalizing st with
  | nil => rfl
  | cons binding rest ih => rw [defineAll_cons, ih, isLive_define]

theorem defineAll_append (more : List (String × Value)) :
    st.defineAll s (bindings ++ more) = (st.defineAll s bindings).defineAll s more :=
  List.foldl_append

/-- Definitions of other names leave a binding as it is. -/
theorem binding?_defineAll_of_notMem {key : String} (h : key ∉ bindings.map Prod.fst) :
    (st.defineAll s bindings).binding? t key = st.binding? t key := by
  induction bindings generalizing st with
  | nil => rfl
  | cons binding rest ih =>
    rw [List.map_cons, List.mem_cons, not_or] at h
    rw [defineAll_cons, ih _ h.2, binding?_define, if_neg fun hc => h.1 hc.2.2]

theorem scopes_defineAll_of_ne {s t : ScopeId} (h : t ≠ s) :
    (st.defineAll s bindings).scopes[t]? = st.scopes[t]? := by
  induction bindings generalizing st with
  | nil => rfl
  | cons binding rest ih => rw [defineAll_cons, ih, scopes_define_of_ne st _ _ h]

@[simp] theorem nextScope_extend : (st.extend s bindings).nextScope = st.nextScope + 1 := by
  simp [extend]

@[simp] theorem closures_extend : (st.extend s bindings).closures = st.closures :=
  closures_defineAll ..

/-- To open a scope leaves all earlier ones as they are. -/
theorem scopes_extend_of_lt {s t : ScopeId} (h : t < st.nextScope) :
    (st.extend s bindings).scopes[t]? = st.scopes[t]? := by
  have hne : t ≠ st.nextScope := Nat.ne_of_lt h
  rw [extend, scopes_defineAll_of_ne _ _ hne, scopes_addScope, if_neg hne]

/-! ### Counting a closure, and releasing a scope -/

@[simp] theorem closures_countClosure : st.countClosure.closures = st.closures + 1 := rfl

@[simp] theorem nextScope_release : (st.release s).nextScope = st.nextScope := by
  simp [release, nextScope]

/-- To release a scope takes its life and nothing else. -/
theorem scopes_release :
    (st.release s).scopes[t]? =
      if s = t then st.scopes[t]?.map fun scope => { scope with live := false }
      else st.scopes[t]? := by
  simp [release, Array.getElem?_modify]

@[simp] theorem parent?_release : (st.release s).parent? t = st.parent? t := by
  unfold parent?
  rw [scopes_release]
  split
  · cases st.scopes[t]? <;> rfl
  · rfl

theorem isLive_release_of_ne (h : s ≠ t) : (st.release s).isLive t = st.isLive t := by
  rw [isLive, scopes_release, if_neg h, isLive]

@[simp] theorem binding?_release : (st.release s).binding? t key = st.binding? t key := by
  unfold binding?
  rw [scopes_release]
  split
  · cases st.scopes[t]? <;> rfl
  · rfl

/-! ### Looking a name up -/

theorem find?_eq_of_binding {b : Binding} (hb : st.binding? s name = some b)
    (hres : st.resolve b = some v) : st.find? s name = some v := by
  rw [find?, chain, List.findSome?_cons, hb, Option.bind_some, hres]

/-- The binding is to a closure that is held weakly, and the scope of the closure is gone. -/
def Dangles : Binding → Prop
  | .value _ => False
  | .weak head _ => st.isLive head.scope = false

/-- A binding that dangles has no answer. -/
theorem resolve_of_dangles {b : Binding} (h : st.Dangles b) : st.resolve b = none := by
  cases b with
  | value u => exact h.elim
  | weak head body =>
    have hgone : st.isLive head.scope = false := h
    rw [resolve, hgone]
    rfl

/-- Any other binding answers with what it holds. -/
theorem resolve_of_not_dangles {b : Binding} (h : ¬ st.Dangles b) :
    st.resolve b = some b.held := by
  cases b with
  | value u => rfl
  | weak head body =>
    have hlive : st.isLive head.scope = true := eq_true_of_ne_false h
    rw [resolve, if_pos hlive]
    rfl

/-- A binding answers with the value that was bound, unless it dangles. -/
theorem resolve_eq_some_iff {b : Binding} :
    st.resolve b = some v ↔ ¬ st.Dangles b ∧ b.held = v := by
  by_cases h : st.Dangles b
  · rw [resolve_of_dangles st h]
    exact ⟨fun hsome => absurd hsome (Option.some_ne_none v).symm,
      fun hkept => absurd h hkept.1⟩
  · rw [resolve_of_not_dangles st h, Option.some_inj]
    exact ⟨fun hheld => ⟨h, hheld⟩, And.right⟩

/-- What is found for a name is bound to it in a scope of the chain. -/
theorem exists_binding_of_find? (h : st.find? s name = some v) :
    ∃ t ∈ st.chain s, ∃ b, st.binding? t name = some b ∧ b.held = v := by
  obtain ⟨t, ht, hv⟩ := List.exists_of_findSome?_eq_some h
  obtain ⟨b, hb, hresolve⟩ := Option.bind_eq_some_iff.1 hv
  exact ⟨t, ht, b, hb, ((resolve_eq_some_iff st v).1 hresolve).2⟩

/-- A name is bound if it is bound to something. -/
theorem isBound_iff : st.isBound s name = true ↔ ∃ b, st.binding? s name = some b :=
  Option.isSome_iff_exists

/-- A name is bound in a scope if and only if the scope lists it. -/
theorem mem_scopeKeys_iff : name ∈ st.scopeKeys s ↔ st.isBound s name = true := by
  unfold scopeKeys isBound binding?
  cases st.scopes[s]? with
  | none => simp
  | some scope => exact scope.bindings.mem_keys_iff name

/-- A scope lists each name once. -/
theorem nodup_scopeKeys : (st.scopeKeys s).Nodup := by
  unfold scopeKeys
  cases st.scopes[s]? with
  | none => exact .nil
  | some scope => exact scope.bindings.keys_nodup

end Store

/-! ### What is true of all bindings -/

/-- `K` is true of each bound name and the value that it is bound to, in every scope, be the binding
hidden by another one or not. -/
def Store.EveryBinding (K : String → Value → Prop) (st : Store) : Prop :=
  ∀ s name b, st.binding? s name = some b → K name b.held

namespace Store.EveryBinding

variable {K : String → Value → Prop} {st : Store}

theorem empty : EveryBinding K {} := by
  intro s name b hb
  rw [binding?_of_nextScope_le _ _ _ (Nat.zero_le s)] at hb
  cases hb

/-- One more binding must have the property, and all others keep it. -/
theorem bind (h : st.EveryBinding K) (s : ScopeId) {name : String} {b : Binding}
    (hb : K name b.held) : (st.bind s name b).EveryBinding K := by
  intro t key b' hb'
  rw [binding?_bind] at hb'
  split at hb'
  · next hself =>
    obtain rfl := Option.some.inj hb'
    rw [hself.2.2]
    exact hb
  · exact h t key b' hb'

/-- A definition adds one binding, of the value under its name. -/
theorem define (h : st.EveryBinding K) (s : ScopeId) {name : String} {v : Value}
    (hv : K name (v.named name)) : (st.define s name v).EveryBinding K := by
  refine h.bind s ?_
  rw [Binding.held_hold]
  exact hv

theorem countClosure (h : st.EveryBinding K) : st.countClosure.EveryBinding K := h

theorem defineAll (h : st.EveryBinding K) (s : ScopeId) {bindings : List (String × Value)}
    (hbindings : ∀ binding ∈ bindings, K binding.1 (binding.2.named binding.1)) :
    (st.defineAll s bindings).EveryBinding K := by
  induction bindings generalizing st with
  | nil => exact h
  | cons binding rest ih =>
    obtain ⟨hfirst, hrest⟩ := List.forall_mem_cons.1 hbindings
    exact ih (h.define s hfirst) hrest

theorem addScope (h : st.EveryBinding K) (parent : Option ScopeId) :
    (st.addScope parent).EveryBinding K := by
  intro t key b hb
  rw [binding?_addScope] at hb
  exact h t key b hb

/-- A new scope adds the bindings that it is given. -/
theorem extend (h : st.EveryBinding K) (s : ScopeId) {bindings : List (String × Value)}
    (hbindings : ∀ binding ∈ bindings, K binding.1 (binding.2.named binding.1)) :
    (st.extend s bindings).EveryBinding K :=
  (h.addScope (some s)).defineAll st.nextScope hbindings

theorem release (h : st.EveryBinding K) (s : ScopeId) : (st.release s).EveryBinding K := by
  intro t key b hb
  rw [binding?_release] at hb
  exact h t key b hb

end Store.EveryBinding

end AtomLisp
