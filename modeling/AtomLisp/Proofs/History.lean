import AtomLisp.Proofs.StoreOperations
import Mathlib.Data.List.Chain
import Mathlib.Logic.Relation

/-!
# The history of a store

A store changes in five ways only: a root scope is added, a scope is added inside an existing one, a
closure is counted, a name is defined in an existing scope, and a scope is released. The changes
that have been made determine what every scope answers.

`Store.History` collects the changes that led to a store, the newest first. A scope binds a name to
what it was last defined as (`Store.History.binding?_eq`), and a live scope answers with it
(`Store.History.lookup_eq`). Scopes keep their parents for ever, and as parents are older, each
chain ends in a root (`Store.chain_isChain`).
-/

namespace AtomLisp

namespace Store

/-- A single change of a store. -/
inductive Change where
  | root
  | child (parent : ScopeId)
  | closure
  | define (s : ScopeId) (name : String) (v : Value)
  | release (s : ScopeId)

/-- The scope that a change refers to must exist. -/
def Allows (st : Store) : Change → Prop
  | .root => True
  | .child parent => parent < st.nextScope
  | .closure => True
  | .define s _ _ => s < st.nextScope
  | .release _ => True

/-- The store after a change. -/
def make (st : Store) : Change → Store
  | .root => st.addScope none
  | .child parent => st.addScope (some parent)
  | .closure => st.countClosure
  | .define s name v => st.define s name v
  | .release s => st.release s

/-- One store comes from another one by a change that is allowed. -/
def Changes (st st' : Store) : Prop :=
  ∃ change, st.Allows change ∧ st' = st.make change

/-- One store comes from another one by changes that are allowed. -/
abbrev Evolves : Store → Store → Prop :=
  Relation.ReflTransGen Changes

/-- All changes that led to a store from the empty one, the newest first. -/
inductive History : List Change → Store → Prop where
  | start : History [] {}
  | change {changes : List Change} {st : Store} {change : Change} : History changes st →
      st.Allows change → History (change :: changes) (st.make change)

/-- The value that a name was last defined as in scope `s`, if it ever was. -/
def latest? (s : ScopeId) (name : String) : List Change → Option Value
  | [] => none
  | .define t key v :: changes => if t = s ∧ key = name then some v else latest? s name changes
  | .root :: changes => latest? s name changes
  | .child _ :: changes => latest? s name changes
  | .closure :: changes => latest? s name changes
  | .release _ :: changes => latest? s name changes

/-! ### What a change leaves as it is -/

theorem nextScope_le_make (st : Store) (change : Change) :
    st.nextScope ≤ (st.make change).nextScope := by
  cases change with
  | root => exact Nat.le_of_lt (by rw [make, nextScope_addScope]; exact Nat.lt_succ_self _)
  | child parent => exact Nat.le_of_lt (by rw [make, nextScope_addScope]; exact Nat.lt_succ_self _)
  | closure => exact Nat.le_refl _
  | define s name v => exact Nat.le_of_eq (nextScope_define ..).symm
  | release s => exact Nat.le_of_eq (nextScope_release ..).symm

theorem closures_le_make (st : Store) (change : Change) :
    st.closures ≤ (st.make change).closures := by
  cases change with
  | closure => exact Nat.le_succ _
  | _ => exact Nat.le_refl _

/-- No change gives another parent to a scope that exists. -/
theorem parent?_make (st : Store) (change : Change) {s : ScopeId} (hs : s < st.nextScope) :
    (st.make change).parent? s = st.parent? s := by
  have hne : s ≠ st.nextScope := Nat.ne_of_lt hs
  cases change with
  | root => rw [make, parent?_addScope, if_neg hne]
  | child parent => rw [make, parent?_addScope, if_neg hne]
  | closure => rfl
  | define t name v => exact parent?_define ..
  | release t => exact parent?_release ..

namespace Evolves

variable {st st' : Store}

theorem nextScope_le (h : Evolves st st') : st.nextScope ≤ st'.nextScope := by
  induction h with
  | refl => exact Nat.le_refl _
  | tail _ hstep ih =>
    obtain ⟨change, -, rfl⟩ := hstep
    exact Nat.le_trans ih (nextScope_le_make _ change)

theorem closures_le (h : Evolves st st') : st.closures ≤ st'.closures := by
  induction h with
  | refl => exact Nat.le_refl _
  | tail _ hstep ih =>
    obtain ⟨change, -, rfl⟩ := hstep
    exact Nat.le_trans ih (closures_le_make _ change)

/-- A scope has the same parent for ever. -/
theorem parent?_eq (h : Evolves st st') {s : ScopeId} (hs : s < st.nextScope) :
    st'.parent? s = st.parent? s := by
  induction h with
  | refl => rfl
  | tail hrest hstep ih =>
    obtain ⟨change, -, rfl⟩ := hstep
    rw [parent?_make _ change (Nat.lt_of_lt_of_le hs (nextScope_le hrest)), ih]

/-- A change that is allowed leads to a later store. -/
theorem make (st : Store) (change : Change) (h : st.Allows change) :
    Evolves st (st.make change) :=
  .single ⟨change, h, rfl⟩

/-- Definitions one after the other lead to a later store. -/
theorem defineAll (st : Store) {s : ScopeId} (hs : s < st.nextScope)
    (bindings : List (String × Value)) : Evolves st (st.defineAll s bindings) := by
  induction bindings generalizing st with
  | nil => exact .refl
  | cons binding rest ih =>
    obtain ⟨name, v⟩ := binding
    have hs' : s < (st.define s name v).nextScope := by
      rw [nextScope_define]
      exact hs
    exact (make st (.define s name v) hs).trans (ih _ hs')

/-- Opening a scope is a change and a row of definitions in the new scope. -/
theorem extend (st : Store) {s : ScopeId} (hs : s < st.nextScope)
    (bindings : List (String × Value)) : Evolves st (st.extend s bindings) := by
  have hnew : st.nextScope < (st.addScope (some s)).nextScope := by
    rw [nextScope_addScope]
    exact Nat.lt_succ_self _
  exact (make st (.child s) hs).trans (defineAll _ hnew bindings)

end Evolves

namespace History

variable {changes : List Change} {st st' : Store}

/-- A history goes on as the store evolves. -/
theorem evolves (h : History changes st) (hevolves : Evolves st st') :
    ∃ later, History (later ++ changes) st' := by
  induction hevolves with
  | refl => exact ⟨[], h⟩
  | tail _ hstep ih =>
    obtain ⟨change, hallowed, rfl⟩ := hstep
    obtain ⟨later, hlater⟩ := ih
    exact ⟨change :: later, .change hlater hallowed⟩

/-- A scope that has not been released is live. -/
theorem isLive_eq_true (h : History changes st) {s : ScopeId} (hs : s < st.nextScope)
    (hkept : Change.release s ∉ changes) : st.isLive s = true := by
  induction h with
  | start => exact absurd hs (Nat.not_lt_zero s)
  | @change changes st change hrest hallowed ih =>
    have hkept' : Change.release s ∉ changes := fun hmem => hkept (List.mem_cons_of_mem _ hmem)
    have hnew : ∀ parent, s < (st.addScope parent).nextScope →
        (st.addScope parent).isLive s = true := by
      intro parent hlt
      rw [isLive_addScope]
      by_cases hs' : s = st.nextScope
      · rw [if_pos hs']
      · rw [nextScope_addScope] at hlt
        rw [if_neg hs', ih (Nat.lt_of_le_of_ne (Nat.le_of_lt_succ hlt) hs') hkept']
    cases change with
    | root => exact hnew none hs
    | child parent => exact hnew (some parent) hs
    | closure => exact ih hs hkept'
    | define t name v =>
      rw [make, nextScope_define] at hs
      exact (isLive_define ..).trans (ih hs hkept')
    | release t =>
      have hne : t ≠ s := by
        rintro rfl
        exact hkept List.mem_cons_self
      rw [make, nextScope_release] at hs
      exact (isLive_release_of_ne st t s hne).trans (ih hs hkept')

/-- What a scope binds a name to is what the name was last defined as there, in the way in which
that scope holds it. -/
theorem binding?_eq (h : History changes st) (s : ScopeId) (name : String) :
    st.binding? s name = (latest? s name changes).map fun v => .hold s (v.named name) := by
  -- the newest change decides only if it defines this very name in this very scope
  induction h with
  | start => exact binding?_of_nextScope_le _ _ _ (Nat.zero_le s)
  | @change changes st change hrest hallowed ih =>
    cases change with
    | root => exact (binding?_addScope ..).trans ih
    | child parent => exact (binding?_addScope ..).trans ih
    | closure => exact ih
    | release t => exact (binding?_release ..).trans ih
    | define t key v =>
      have ht : t < st.nextScope := hallowed
      rw [make, binding?_define, latest?]
      by_cases hst : t = s ∧ key = name
      · obtain ⟨rfl, rfl⟩ := hst
        simp [ht]
      · have hnot : ¬ (t = s ∧ s < st.nextScope ∧ name = key) :=
          fun hc => hst ⟨hc.1, hc.2.2.symm⟩
        rw [if_neg hst, if_neg hnot, ih]

end History

/-! ### Answers -/

/-- A live scope answers for every binding held in the way it holds things itself. -/
theorem resolve_hold (st : Store) {s : ScopeId} (hs : st.isLive s = true) (v : Value) :
    st.resolve (.hold s v) = some v := by
  cases v with
  | closure head body =>
    rw [Binding.hold]
    split
    · next hscope => rw [resolve, hscope, if_pos hs]
    · rfl
  | _ => rfl

namespace History

variable {changes : List Change} {st : Store}

/-- A live scope answers with what the name was last defined as there. -/
theorem lookup_eq (h : History changes st) {s : ScopeId} (hs : st.isLive s = true)
    {name : String} {v : Value} (hv : latest? s name changes = some v) :
    st.lookup s name = v.named name := by
  have hbinding : st.binding? s name = some (.hold s (v.named name)) := by
    rw [h.binding?_eq, hv, Option.map_some]
  rw [lookup, find?_eq_of_binding st s name _ hbinding (resolve_hold st hs _), Option.getD_some]

end History

/-! ### Chains -/

/-- The chain of a root ends there. -/
theorem chain_of_root {st : Store} {s : ScopeId} (h : st.parent? s = none) : st.chain s = [s] := by
  rw [chain, h]

/-- The chain of a scope goes on with that of its parent. -/
theorem chain_of_parent {st : Store} {s parent : ScopeId} (h : st.parent? s = some parent)
    (hlt : parent < s) : st.chain s = s :: st.chain parent := by
  rw [chain, h]
  simp only [if_pos hlt]

/-- In a store where parents are older, the chain goes from parent to parent. -/
theorem chain_eq_cons (st : Store) (hst : ∀ s parent, st.parent? s = some parent → parent < s)
    (s : ScopeId) : st.chain s = s :: (st.parent? s).elim [] st.chain := by
  cases hparent : st.parent? s with
  | none => exact chain_of_root hparent
  | some parent => exact chain_of_parent hparent (hst s parent hparent)

/-- The chain of a scope goes from each scope to its parent and ends in a root. -/
theorem chain_isChain (st : Store) (hst : ∀ s parent, st.parent? s = some parent → parent < s)
    (s : ScopeId) :
    (st.chain s).IsChain (fun t parent => st.parent? t = some parent) ∧
      ∃ root, (st.chain s).getLast? = some root ∧ st.parent? root = none := by
  induction s using Nat.strongRecOn with
  | _ s ih =>
    rw [chain_eq_cons st hst]
    cases hparent : st.parent? s with
    | none => exact ⟨.singleton s, s, rfl, hparent⟩
    | some parent =>
      obtain ⟨hchain, root, hlast, hroot⟩ := ih parent (hst s parent hparent)
      rw [chain_eq_cons st hst] at hchain hlast
      rw [Option.elim_some, chain_eq_cons st hst]
      exact ⟨.cons_cons hparent hchain, root, hlast, hroot⟩

end Store

end AtomLisp
