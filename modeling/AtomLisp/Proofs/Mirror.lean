import AtomLisp.Proofs.History
import AtomLisp.Proofs.References
import AtomLisp.Proofs.Renaming

/-!
# Stores that mirror one another

Two runs are compared by looking at some scopes of the first one only, and at some names only. The
second store mirrors the first if each of these scopes has a counterpart in it, under a new number,
which binds these names to the same under new numbers. What is looked at must be closed: the parents
of scopes looked at, and the scopes captured by closures bound in them, are looked at as well, and
so are all names that the bodies of these closures look up.

A known name stands for the same in both stores (`Mirror.Stores.lookup_eq`), and changes made in
both keep the one a mirror of the other (`Mirror.Stores.define`, `Mirror.Stores.extend`,
`Mirror.Stores.countClosure`).
-/

namespace AtomLisp

/-- The binding under new numbers. -/
def Binding.rename (ρ : Renaming) : Binding → Binding
  | value v => value (v.rename ρ)
  | weak head body => weak (head.rename ρ) (body.map (Value.rename ρ))

namespace Binding

variable (ρ : Renaming)

@[simp] theorem rename_id (b : Binding) : b.rename .id = b := by
  cases b with
  | value v => rw [rename, Value.rename_id]
  | weak head body => rw [rename, Value.map_rename_id, ClosureHead.rename_id]

/-- Under new numbers a value is held in the same way. -/
theorem hold_rename (s : ScopeId) (v : Value) :
    (hold s v).rename ρ = hold (ρ.scope s) (v.rename ρ) := by
  cases v with
  | closure head body =>
    have hscope : ρ.scope head.scope = ρ.scope s ↔ head.scope = s := ρ.scope_injective.eq_iff
    rw [Value.rename_closure, hold, hold, ClosureHead.rename]
    by_cases h : head.scope = s
    · rw [if_pos h, if_pos (hscope.2 h)]
      rfl
    · rw [if_neg h, if_neg (mt hscope.1 h), rename, Value.rename_closure]
      rfl
  | atom text => simp [hold, rename]
  | list items => simp [hold, rename]
  | builtin op => simp [hold, rename]

end Binding

/-- How the scopes of a first store are found in a second one: the scopes and the names that are
looked at, and the new numbers. A closure is usually one that the first store has counted; `foreign`
says which other numbers a closure may have. -/
structure Mirror where
  numbering : Renaming
  visible : ScopeId → Prop
  foreign : Nat → Prop
  known : String → Prop
  /-- Clauses that run out look this name up. -/
  known_false : known "#f"

namespace Mirror

variable (M : Mirror)

/-- The closure captures an existing scope that is looked at. -/
def Fits (st : Store) (head : ClosureHead) : Prop :=
  M.visible head.scope ∧ head.scope < st.nextScope ∧
    (head.id < st.closures ∨ M.foreign head.id)

/-- All closures within the value capture existing scopes that are looked at, and their bodies look
up known names only. -/
def Admits (st : Store) (v : Value) : Prop :=
  v.EveryProcedure fun head body => M.Fits st head ∧ ∀ x ∈ body, x.Over M.known

/-- The expression looks up known names only, and the closures within it are admitted. -/
structure Covers (st : Store) (x : Value) : Prop where
  admits : M.Admits st x
  known : x.Over M.known

variable {M} in
/-- What is admitted stays so when scopes and closures are added. -/
theorem Admits.mono {st st' : Store} {v : Value} (h : M.Admits st v)
    (hscopes : st.nextScope ≤ st'.nextScope) (hclosures : st.closures ≤ st'.closures) :
    M.Admits st' v :=
  Value.EveryProcedure.mono h fun _ _ ⟨⟨hvisible, hscope, hid⟩, hbody⟩ =>
    ⟨⟨hvisible, Nat.lt_of_lt_of_le hscope hscopes,
      hid.imp_left (Nat.lt_of_lt_of_le · hclosures)⟩, hbody⟩

variable {M} in
theorem Admits.evolves {st st' : Store} {v : Value} (h : M.Admits st v)
    (hevolves : Store.Evolves st st') : M.Admits st' v :=
  h.mono (Store.Evolves.nextScope_le hevolves) (Store.Evolves.closures_le hevolves)

variable {M} in
/-- A name does not matter to whether a value is admitted. -/
theorem Admits.named {st : Store} {v : Value} (h : M.Admits st v) (name : String) :
    M.Admits st (v.named name) :=
  Value.EveryProcedure.named h name fun _ _ _ hhead => hhead

variable {M} in
theorem Covers.evolves {st st' : Store} {x : Value} (h : M.Covers st x)
    (hevolves : Store.Evolves st st') : M.Covers st' x :=
  ⟨h.admits.evolves hevolves, h.known⟩

variable {M} in
/-- A closure is admitted if it fits and the forms of its body are covered. -/
theorem admits_closure {st : Store} {head : ClosureHead} {body : List Value} :
    M.Admits st (.closure head body) ↔ M.Fits st head ∧ ∀ x ∈ body, M.Covers st x := by
  constructor
  · intro h
    obtain ⟨⟨hfits, hover⟩, hbody⟩ := Value.everyProcedure_closure.1 h
    exact ⟨hfits, fun x hx => ⟨hbody x hx, hover x hx⟩⟩
  · rintro ⟨hfits, hbody⟩
    exact Value.everyProcedure_closure.2
      ⟨⟨hfits, fun x hx => (hbody x hx).known⟩, fun x hx => (hbody x hx).admits⟩

/-- The second store mirrors the first one. -/
structure Stores (st st' : Store) : Prop where
  nextScope_eq : st'.nextScope = M.numbering.scope st.nextScope
  closures_eq : st'.closures = M.numbering.closure st.closures
  /-- All scopes made from now on are looked at. -/
  visible_new (n : Nat) (hn : st.nextScope ≤ n) : M.visible n
  /-- From now on, new scopes get their numbers in the same order in both stores. -/
  scope_succ (n : Nat) (hn : st.nextScope ≤ n) :
    M.numbering.scope (n + 1) = M.numbering.scope n + 1
  closure_succ (n : Nat) (hn : st.closures ≤ n) :
    M.numbering.closure (n + 1) = M.numbering.closure n + 1
  parent_eq (s : ScopeId) (hs : M.visible s) (hlt : s < st.nextScope) :
    st'.parent? (M.numbering.scope s) = (st.parent? s).map M.numbering.scope
  isLive_eq (s : ScopeId) (hs : M.visible s) (hlt : s < st.nextScope) :
    st'.isLive (M.numbering.scope s) = st.isLive s
  binding_eq (s : ScopeId) (hs : M.visible s) (hlt : s < st.nextScope) (name : String)
    (hname : M.known name) :
    st'.binding? (M.numbering.scope s) name = (st.binding? s name).map (Binding.rename M.numbering)
  /-- The parent of a scope that is looked at is older, and looked at. -/
  parent_visible (s parent : ScopeId) (hs : M.visible s) (h : st.parent? s = some parent) :
    M.visible parent ∧ parent < s
  /-- So are the scopes captured by the closures bound there. -/
  admits (s : ScopeId) (name : String) (b : Binding) (hs : M.visible s)
    (h : st.binding? s name = some b) : M.Admits st b.held

namespace Stores

variable {M} {st st' : Store}

/-! ### Looking names up -/

/-- The chain of a scope that is looked at is looked at. -/
theorem mem_chain (h : M.Stores st st') {s : ScopeId} (hs : M.visible s)
    (hlt : s < st.nextScope) : ∀ t ∈ st.chain s, M.visible t ∧ t < st.nextScope := by
  induction s using Nat.strongRecOn with
  | _ s ih =>
    intro t ht
    rw [Store.chain] at ht
    rcases List.mem_cons.1 ht with rfl | ht
    · exact ⟨hs, hlt⟩
    · cases hparent : st.parent? s with
      | none =>
        rw [hparent] at ht
        exact absurd ht List.not_mem_nil
      | some parent =>
        obtain ⟨hvisible, hparent_lt⟩ := h.parent_visible s parent hs hparent
        simp only [hparent, if_pos hparent_lt] at ht
        exact ih parent hparent_lt hvisible (Nat.lt_trans hparent_lt hlt) t ht

/-- A chain of scopes that are looked at is the same chain in the second store. -/
theorem chain_eq (h : M.Stores st st') {s : ScopeId} (hs : M.visible s)
    (hlt : s < st.nextScope) :
    st'.chain (M.numbering.scope s) = (st.chain s).map M.numbering.scope := by
  induction s using Nat.strongRecOn with
  | _ s ih =>
    rw [Store.chain, Store.chain.eq_1 st s, List.map_cons, h.parent_eq s hs hlt]
    cases hparent : st.parent? s with
    | none => rfl
    | some parent =>
      -- both chains go on, since the new numbers are in the same order
      obtain ⟨hvisible, hparent_lt⟩ := h.parent_visible s parent hs hparent
      have hparent_lt' := M.numbering.scope_strictMono hparent_lt
      simp only [Option.map_some, if_pos hparent_lt, if_pos hparent_lt']
      rw [ih parent hparent_lt hvisible (Nat.lt_trans hparent_lt hlt)]

/-- A binding answers with the same in both stores. -/
theorem resolve_eq (h : M.Stores st st') {b : Binding} (hb : M.Admits st b.held) :
    st'.resolve (b.rename M.numbering) = (st.resolve b).map (Value.rename M.numbering) := by
  cases b with
  | value v => rfl
  | weak head body =>
    obtain ⟨⟨hvisible, hlt, -⟩, -⟩ := admits_closure.1 hb
    have hlive := h.isLive_eq head.scope hvisible hlt
    rw [Binding.rename, Store.resolve, Store.resolve, ClosureHead.rename, hlive]
    split
    · rw [Option.map_some, Value.rename_closure]
      rfl
    · rfl

/-- A known name is found to be bound to the same in both stores. -/
theorem find?_eq (h : M.Stores st st') {s : ScopeId} (hs : M.visible s)
    (hlt : s < st.nextScope) {name : String} (hname : M.known name) :
    st'.find? (M.numbering.scope s) name = (st.find? s name).map (Value.rename M.numbering) := by
  rw [Store.find?, Store.find?, h.chain_eq hs hlt]
  -- the induction is on the chain, and needs of its scopes only that they are looked at
  have hmem := h.mem_chain hs hlt
  generalize st.chain s = scopes at hmem
  induction scopes with
  | nil => rfl
  | cons t rest ih =>
    obtain ⟨ht, htlt⟩ := hmem t List.mem_cons_self
    have hrest := ih fun u hu => hmem u (List.mem_cons_of_mem _ hu)
    rw [List.map_cons, List.findSome?_cons, List.findSome?_cons, h.binding_eq t ht htlt name hname]
    cases hb : st.binding? t name with
    | none => exact hrest
    | some b =>
      have hresolve := h.resolve_eq (h.admits t name b ht hb)
      simp only [Option.map_some, Option.bind_some, hresolve]
      cases st.resolve b with
      | none => exact hrest
      | some v => rfl

/-- A known name stands for the same in both stores. -/
theorem lookup_eq (h : M.Stores st st') {s : ScopeId} (hs : M.visible s)
    (hlt : s < st.nextScope) {name : String} (hname : M.known name) :
    st'.lookup (M.numbering.scope s) name = (st.lookup s name).rename M.numbering := by
  rw [Store.lookup, Store.lookup, h.find?_eq hs hlt hname]
  cases st.find? s name with
  | some v => rfl
  | none =>
    simp only [Option.map_none, Option.getD_none, Store.unbound]
    cases Builtin.ofName? name with
    | some op => exact (Value.rename_builtin _ op).symm
    | none => exact (Value.rename_atom _ name).symm

/-- What is found for a name captures only scopes that are looked at. -/
theorem admits_lookup (h : M.Stores st st') {s : ScopeId} (hs : M.visible s)
    (hlt : s < st.nextScope) (name : String) : M.Admits st (st.lookup s name) :=
  Store.everyProcedure_lookup fun t ht b hb => h.admits t name b (h.mem_chain hs hlt t ht).1 hb

/-! ### Changes made in both stores -/

/-- Counting a closure in both stores keeps the one a mirror of the other. -/
theorem countClosure (h : M.Stores st st') : M.Stores st.countClosure st'.countClosure where
  nextScope_eq := h.nextScope_eq
  closures_eq := by
    rw [Store.closures_countClosure, Store.closures_countClosure, h.closures_eq,
      h.closure_succ _ (Nat.le_refl _)]
  visible_new := h.visible_new
  scope_succ := h.scope_succ
  closure_succ n hn := h.closure_succ n (Nat.le_of_succ_le hn)
  parent_eq := h.parent_eq
  isLive_eq := h.isLive_eq
  binding_eq := h.binding_eq
  parent_visible := h.parent_visible
  admits s name b hs hb := (h.admits s name b hs hb).mono (Nat.le_refl _) (Nat.le_succ _)

/-- The closure made next fits, and is made next in the second store, too. -/
theorem nextClosure_eq (h : M.Stores st st') (params : List String) (body : List Value)
    (s : ScopeId) :
    st'.nextClosure params (body.map (Value.rename M.numbering)) (M.numbering.scope s) =
      (st.nextClosure params body s).rename M.numbering := by
  rw [Store.nextClosure, Store.nextClosure, Value.rename_closure, h.closures_eq]
  rfl

/-- A closure that is made where scopes are looked at is admitted. -/
theorem admits_nextClosure {s : ScopeId} (hs : M.visible s) (hlt : s < st.nextScope)
    {params : List String} {body : List Value} (hbody : ∀ x ∈ body, M.Covers st x) :
    M.Admits st.countClosure (st.nextClosure params body s) := by
  refine admits_closure.2 ⟨⟨hs, hlt, .inl (Nat.lt_succ_self _)⟩, fun x hx => ⟨?_, ?_⟩⟩
  · exact (hbody x hx).admits.mono (Nat.le_refl _) (Nat.le_succ _)
  · exact (hbody x hx).known

/-- The same definition in both stores keeps the one a mirror of the other. -/
theorem define (h : M.Stores st st') (s : ScopeId) (name : String) {v : Value}
    (hv : M.Admits st v) :
    M.Stores (st.define s name v)
      (st'.define (M.numbering.scope s) name (v.rename M.numbering)) where
  nextScope_eq := by rw [Store.nextScope_define, Store.nextScope_define, h.nextScope_eq]
  closures_eq := h.closures_eq
  visible_new n hn := h.visible_new n (by rwa [Store.nextScope_define] at hn)
  scope_succ n hn := h.scope_succ n (by rwa [Store.nextScope_define] at hn)
  closure_succ := h.closure_succ
  parent_eq t ht htlt := by
    rw [Store.nextScope_define] at htlt
    rw [Store.parent?_define, Store.parent?_define, h.parent_eq t ht htlt]
  isLive_eq t ht htlt := by
    rw [Store.nextScope_define] at htlt
    rw [Store.isLive_define, Store.isLive_define, h.isLive_eq t ht htlt]
  binding_eq t ht htlt key hkey := by
    rw [Store.nextScope_define] at htlt
    have hlt' : M.numbering.scope t < st'.nextScope := by
      rw [h.nextScope_eq]
      exact M.numbering.scope_strictMono htlt
    simp only [Store.binding?_define, M.numbering.scope_injective.eq_iff]
    by_cases hbound : s = t ∧ key = name
    · obtain ⟨rfl, rfl⟩ := hbound
      rw [if_pos ⟨rfl, hlt', rfl⟩, if_pos ⟨rfl, htlt, rfl⟩, Option.map_some,
        Binding.hold_rename, Value.rename_named]
    · rw [if_neg fun hc => hbound ⟨hc.1, hc.2.2⟩, if_neg fun hc => hbound ⟨hc.1, hc.2.2⟩,
        h.binding_eq t ht htlt key hkey]
  parent_visible t parent ht hparent :=
    h.parent_visible t parent ht (by rwa [Store.parent?_define] at hparent)
  admits t key b ht hb := by
    have hle := Nat.le_of_eq (Store.nextScope_define st s name v).symm
    rw [Store.binding?_define] at hb
    split at hb
    · obtain rfl := Option.some.inj hb
      rw [Binding.held_hold]
      exact (hv.named name).mono hle (Nat.le_refl _)
    · exact (h.admits t key b ht hb).mono hle (Nat.le_refl _)

/-- A scope added in both stores keeps the one a mirror of the other. -/
theorem addScope (h : M.Stores st st') {parent : ScopeId} (hparent : M.visible parent)
    (hlt : parent < st.nextScope) :
    M.Stores (st.addScope (some parent))
      (st'.addScope (some (M.numbering.scope parent))) where
  nextScope_eq := by
    rw [Store.nextScope_addScope, Store.nextScope_addScope, h.nextScope_eq,
      h.scope_succ _ (Nat.le_refl _)]
  closures_eq := h.closures_eq
  visible_new n hn := by
    rw [Store.nextScope_addScope] at hn
    exact h.visible_new n (Nat.le_of_succ_le hn)
  scope_succ n hn := by
    rw [Store.nextScope_addScope] at hn
    exact h.scope_succ n (Nat.le_of_succ_le hn)
  closure_succ := h.closure_succ
  parent_eq t ht htlt := by
    rw [Store.nextScope_addScope] at htlt
    simp only [Store.parent?_addScope, h.nextScope_eq, M.numbering.scope_injective.eq_iff]
    by_cases hnew : t = st.nextScope
    · rw [if_pos hnew, if_pos hnew, Option.map_some]
    · have hold : t < st.nextScope := Nat.lt_of_le_of_ne (Nat.le_of_lt_succ htlt) hnew
      rw [if_neg hnew, if_neg hnew, h.parent_eq t ht hold]
  isLive_eq t ht htlt := by
    rw [Store.nextScope_addScope] at htlt
    simp only [Store.isLive_addScope, h.nextScope_eq, M.numbering.scope_injective.eq_iff]
    by_cases hnew : t = st.nextScope
    · rw [if_pos hnew, if_pos hnew]
    · have hold : t < st.nextScope := Nat.lt_of_le_of_ne (Nat.le_of_lt_succ htlt) hnew
      rw [if_neg hnew, if_neg hnew, h.isLive_eq t ht hold]
  binding_eq t ht htlt key hkey := by
    rw [Store.nextScope_addScope] at htlt
    rw [Store.binding?_addScope, Store.binding?_addScope]
    by_cases hnew : t = st.nextScope
    · rw [hnew, Store.binding?_of_nextScope_le st _ key (Nat.le_refl _),
        Store.binding?_of_nextScope_le st' _ key (Nat.le_of_eq h.nextScope_eq)]
      rfl
    · have hold : t < st.nextScope := Nat.lt_of_le_of_ne (Nat.le_of_lt_succ htlt) hnew
      exact h.binding_eq t ht hold key hkey
  parent_visible t parent' ht hparent' := by
    rw [Store.parent?_addScope] at hparent'
    split at hparent'
    · next hnew =>
      obtain rfl := Option.some.inj hparent'
      exact ⟨hparent, hnew ▸ hlt⟩
    · exact h.parent_visible t parent' ht hparent'
  admits t key b ht hb := by
    rw [Store.binding?_addScope] at hb
    refine (h.admits t key b ht hb).mono ?_ (Nat.le_refl _)
    rw [Store.nextScope_addScope]
    exact Nat.le_succ _

theorem defineAll (h : M.Stores st st') (s : ScopeId) {bindings : List (String × Value)}
    (hbindings : ∀ binding ∈ bindings, M.Admits st binding.2) :
    M.Stores (st.defineAll s bindings)
      (st'.defineAll (M.numbering.scope s)
        (bindings.map (Prod.map id (Value.rename M.numbering)))) := by
  induction bindings generalizing st st' with
  | nil => exact h
  | cons binding rest ih =>
    obtain ⟨name, v⟩ := binding
    have hle := Nat.le_of_eq (Store.nextScope_define st s name v).symm
    have hstep := h.define s name (hbindings (name, v) List.mem_cons_self)
    refine ih hstep fun binding hbinding => ?_
    exact (hbindings binding (List.mem_cons_of_mem _ hbinding)).mono hle (Nat.le_refl _)

/-- Scopes opened in both stores with the same bindings mirror one another. -/
theorem extend (h : M.Stores st st') {s : ScopeId} (hs : M.visible s) (hlt : s < st.nextScope)
    {bindings : List (String × Value)}
    (hbindings : ∀ binding ∈ bindings, M.Admits st binding.2) :
    M.Stores (st.extend s bindings)
      (st'.extend (M.numbering.scope s)
        (bindings.map (Prod.map id (Value.rename M.numbering)))) := by
  have hle : st.nextScope ≤ (st.addScope (some s)).nextScope := by
    rw [Store.nextScope_addScope]
    exact Nat.le_succ _
  rw [Store.extend, Store.extend, h.nextScope_eq]
  refine (h.addScope hs hlt).defineAll st.nextScope fun binding hbinding => ?_
  exact (hbindings binding hbinding).mono hle (Nat.le_refl _)

end Stores

end Mirror

end AtomLisp
