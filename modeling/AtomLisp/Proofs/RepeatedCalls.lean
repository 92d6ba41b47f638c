import AtomLisp.Proofs.Frame
import AtomLisp.Proofs.Reachable
import Mathlib.Data.Set.Function
import Mathlib.Order.Interval.Set.Defs

/-!
# Calling a procedure again

A call leaves all that existed before it as it was. A second call with the same arguments therefore
finds what the first one found, and does what the first one did. It makes its own scopes and
closures, whose numbers follow those that the first call made (`Renaming.shift`). So the store after
a call mirrors the store before it (`Mirror.stores_of_untouched`), and `repeated_call` says that the
second call has the same effects and the same outcome, and has made again what the first one made.
-/

namespace AtomLisp

open Store

/-! ### Moving numbers up -/

/-- Numbers below `n` stay as they are, and `d` is added to all others. -/
def shiftFrom (n d i : Nat) : Nat :=
  if i < n then i else i + d

section ShiftFrom

variable {n d i : Nat}

theorem shiftFrom_of_lt (h : i < n) : shiftFrom n d i = i :=
  if_pos h

theorem shiftFrom_of_le (h : n ≤ i) : shiftFrom n d i = i + d :=
  if_neg (Nat.not_lt_of_le h)

/-- To shift all numbers from one on keeps their order. -/
theorem shiftFrom_strictMono (n d : Nat) : StrictMono (shiftFrom n d) := by
  intro i j hij
  unfold shiftFrom
  split <;> split <;> omega

theorem shiftFrom_succ (h : n ≤ i) : shiftFrom n d (i + 1) = shiftFrom n d i + 1 := by
  rw [shiftFrom_of_le h, shiftFrom_of_le (Nat.le_succ_of_le h)]
  omega

/-- The numbers from `n` to `m` are moved to the numbers that come after them. -/
theorem shiftFrom_bijOn {m k : Nat} (hm : n + d = m) (hk : m + d = k) :
    Set.BijOn (shiftFrom n d) (Set.Ico n m) (Set.Ico m k) := by
  refine ⟨fun i hi => ?_, (shiftFrom_strictMono n d).injective.injOn, fun j hj => ?_⟩
  · obtain ⟨hn, hlt⟩ := hi
    rw [shiftFrom_of_le hn]
    exact ⟨by omega, by omega⟩
  · obtain ⟨hle, hlt⟩ := hj
    refine ⟨j - d, ⟨by omega, by omega⟩, ?_⟩
    rw [shiftFrom_of_le (by omega)]
    omega

end ShiftFrom

/-! ### From the first call to the second one -/

namespace Renaming

/-- What exists in `st` keeps its number. What is made from then on gets the number that it gets
when it is made after `st'`. -/
def shift (st st' : Store) : Renaming where
  scope := shiftFrom st.nextScope (st'.nextScope - st.nextScope)
  closure := shiftFrom st.closures (st'.closures - st.closures)
  scope_strictMono := shiftFrom_strictMono _ _
  closure_injective := (shiftFrom_strictMono _ _).injective

/-- The scopes and closures made on the way from `st` to `st₁` have been made again, under new
numbers, on the way from `st₁` to `st₂`; they bind the same, under new numbers, and all that is
older has kept its number. -/
structure Repeats (ρ : Renaming) (st st₁ st₂ : Store) : Prop where
  scope_eq (s : ScopeId) (hs : s < st.nextScope) : ρ.scope s = s
  closure_eq (i : Nat) (hi : i < st.closures) : ρ.closure i = i
  scope_bijOn : Set.BijOn ρ.scope (Set.Ico st.nextScope st₁.nextScope)
    (Set.Ico st₁.nextScope st₂.nextScope)
  closure_bijOn : Set.BijOn ρ.closure (Set.Ico st.closures st₁.closures)
    (Set.Ico st₁.closures st₂.closures)
  parent_eq (s : ScopeId) (hs : s < st₁.nextScope) :
    st₂.parent? (ρ.scope s) = (st₁.parent? s).map ρ.scope
  binding_eq (s : ScopeId) (hs : s < st₁.nextScope) (name : String) :
    st₂.binding? (ρ.scope s) name = (st₁.binding? s name).map (Binding.rename ρ)

variable {st st' : Store}

/-- What existed before the first call keeps its number. -/
theorem shift_scope {s : ScopeId} (hs : s < st.nextScope) : (shift st st').scope s = s :=
  shiftFrom_of_lt hs

theorem shift_closure {i : Nat} (hi : i < st.closures) : (shift st st').closure i = i :=
  shiftFrom_of_lt hi

/-- What has been made in the first store keeps its numbers. -/
theorem rename_shift {v : Value} (hv : st.Has v) : v.rename (shift st st') = v := by
  refine Value.rename_eq_self _ (Value.EveryClosure.mono hv fun head hhead => ?_)
  obtain ⟨hscope, hid⟩ := hhead
  rw [ClosureHead.rename, shift_scope hscope, shift_closure hid]

/-- A binding from before the first call is the same. -/
theorem binding_rename_shift {b : Binding} (hb : st.Has b.held) : b.rename (shift st st') = b := by
  have hheld : b.held.rename (shift st st') = b.held := rename_shift hb
  cases b with
  | value v => exact congrArg Binding.value hheld
  | weak head body =>
    rw [Binding.held, Value.rename_closure] at hheld
    obtain ⟨hhead, hbody⟩ := Value.closure.inj hheld
    rw [Binding.rename, hhead, hbody]

end Renaming

namespace Mirror

variable {st st' : Store}

/-- If nothing that existed has been touched, the store mirrors the one it has come from. -/
theorem stores_of_untouched (hst : st.Sound) (h : Untouched st st')
    (hclosures : st.closures ≤ st'.closures) : (total (.shift st st')).Stores st st' where
  nextScope_eq := by
    have hshift := shiftFrom_of_le (d := st'.nextScope - st.nextScope) (Nat.le_refl st.nextScope)
    exact (hshift.trans (Nat.add_sub_cancel' h.nextScope_le)).symm
  closures_eq := by
    have hshift := shiftFrom_of_le (d := st'.closures - st.closures) (Nat.le_refl st.closures)
    exact (hshift.trans (Nat.add_sub_cancel' hclosures)).symm
  visible_new n _ := trivial
  scope_succ n hn := shiftFrom_succ hn
  closure_succ n hn := shiftFrom_succ hn
  parent_eq s _ hlt := by
    rw [total_numbering, Renaming.shift_scope hlt, h.parent?_eq hlt]
    cases hparent : st.parent? s with
    | none => rfl
    | some parent =>
      have hparent_lt : parent < st.nextScope := Nat.lt_trans (hst.parent_lt s parent hparent) hlt
      rw [Option.map_some, Renaming.shift_scope hparent_lt]
  isLive_eq s _ hlt := by
    rw [total_numbering, Renaming.shift_scope hlt, h.isLive_eq hlt]
  binding_eq s _ hlt name _ := by
    rw [total_numbering, Renaming.shift_scope hlt, h.binding?_eq hlt]
    cases hb : st.binding? s name with
    | none => rfl
    | some b => rw [Option.map_some, Renaming.binding_rename_shift (hst.has s name b hb)]
  parent_visible s parent _ hparent := ⟨trivial, hst.parent_lt s parent hparent⟩
  admits s name b _ hb := total_admits_iff.2 (hst.has s name b hb)

/-- The store that a call leaves mirrors the store that the call was made in. -/
theorem stores_after_apply (depth : Nat) {session : Session} (hsound : session.store.Sound)
    {procedure : Value} {args : List Value} (hprocedure : session.store.Has procedure)
    (hargs : ∀ x ∈ args, session.store.Has x) :
    (total (.shift session.store ((apply depth procedure args).after session).store)).Stores
      session.store ((apply depth procedure args).after session).store := by
  have hstep := Session.Step.apply depth hprocedure hargs
  have hclosures := Evolves.closures_le (hstep.evolves_sound hsound).1
  exact stores_of_untouched hsound (apply_untouched depth procedure args session) hclosures

/-- A procedure and arguments that exist in a store keep their numbers, so the call goes on in lock
step with the very same call after the numbers have been moved up. -/
theorem lockStep_apply_shift (depth : Nat) (later : Store) {procedure : Value}
    {args : List Value} (hprocedure : st.Has procedure) (hargs : ∀ x ∈ args, st.Has x) :
    (total (.shift st later)).LockStep st (total (.shift st later)).Image
      (apply depth procedure args) (apply depth procedure args) := by
  have hadmits : (total (.shift st later)).Admits st procedure := total_admits_iff.2 hprocedure
  have hadmits' : ∀ x ∈ args, (total (.shift st later)).Admits st x :=
    fun x hx => total_admits_iff.2 (hargs x hx)
  have h := lockStep_apply depth hadmits hadmits'
  have hrename : args.map (Value.rename (.shift st later)) = args := by
    rw [List.map_congr_left fun x hx => Renaming.rename_shift (hargs x hx), List.map_id']
  rwa [total_numbering, Renaming.rename_shift hprocedure, hrename] at h

/-- If a second store mirrors the store after a call as that mirrors the store before it, the call
has been repeated. -/
theorem Stores.repeats {st₁ st₂ : Store} (h : (total (.shift st st₁)).Stores st₁ st₂)
    (hevolves : Evolves st st₁) : (Renaming.shift st st₁).Repeats st st₁ st₂ where
  scope_eq s hs := Renaming.shift_scope hs
  closure_eq i hi := Renaming.shift_closure hi
  scope_bijOn := by
    have hscopes := Evolves.nextScope_le hevolves
    refine shiftFrom_bijOn (Nat.add_sub_cancel' hscopes) ?_
    exact (h.nextScope_eq.trans (shiftFrom_of_le hscopes)).symm
  closure_bijOn := by
    have hclosures := Evolves.closures_le hevolves
    refine shiftFrom_bijOn (Nat.add_sub_cancel' hclosures) ?_
    exact (h.closures_eq.trans (shiftFrom_of_le hclosures)).symm
  parent_eq s hs := h.parent_eq s trivial hs
  binding_eq s hs name := h.binding_eq s trivial hs name trivial

end Mirror

/-- **Procedures have no hidden state.** Let a procedure be applied to arguments, and applied to
them again in the session that the first call has left. The second call writes the same text and
emits the same events. If the first call has a value, so has the second one, and it is the same
value up to the numbers of what the calls have made; if the first call fails, the second one fails
with the same message in the same context. -/
theorem repeated_call (depth : Nat) {session : Session} (h : session.Reachable)
    {procedure : Value} {args : List Value} (hprocedure : session.store.Has procedure)
    (hargs : ∀ x ∈ args, session.store.Has x) :
    let call := apply depth procedure args
    let first := call.after session
    let second := call.after first
    (∃ text events, session.Adds text events first ∧ first.Adds text events second) ∧
    ∃ ρ : Renaming, ρ.Repeats session.store first.store second.store ∧
      (∀ v, call.outcome session = .ok v → ∃ v', call.outcome first = .ok v' ∧
        v' = v.rename ρ ∧ v'.render = v.render ∧ v'.short = v.short ∧
        v'.inspect = v.inspect ∧
        (v.EveryClosure (fun head => head.id < session.store.closures) → (v == v') = true)) ∧
      ∀ e, call.outcome session = .error (.error e) →
        ∃ e', call.outcome first = .error (.error e') ∧ e'.fault.kind = e.fault.kind ∧
          e'.fault.message = e.fault.message ∧
          e'.context.map Value.render = e.context.map Value.render ∧ e'.text = e.text := by
  intro call first second
  have hstores := Mirror.stores_after_apply depth h.sound hprocedure hargs
  have hlockStep := Mirror.lockStep_apply_shift depth first.store hprocedure hargs
  have hprogress : Mirror.Progress _ session first first second := hlockStep.progress .refl hstores
  have houtcome := hlockStep.outcome_eq .refl hstores
  let ρ := Renaming.shift session.store first.store
  refine ⟨hprogress.added, ρ, hprogress.stores.repeats hprogress.evolves, fun v hv => ?_,
    fun e he => ?_⟩
  · rw [hv] at houtcome
    refine ⟨v.rename ρ, houtcome, rfl, v.render_rename ρ, v.short_rename ρ,
      v.inspect_rename ρ, fun hold => ?_⟩
    exact Value.same_rename_self ρ (hold.mono fun head hid => Renaming.shift_closure hid)
  · rw [he] at houtcome
    exact ⟨e.rename ρ, houtcome, e.fault.kind_rename ρ, e.fault.message_rename ρ,
      e.map_render_context_rename ρ, e.text_rename ρ⟩

/-- The forms `(define n 1)`, `(display n)` and `(lambda () n)`. -/
def Value.closureMakerBody : List Value :=
  [.list [.atom "define", .atom "n", .atom "1"], .list [.atom "display", .atom "n"],
    .list [.atom "lambda", .list [], .atom "n"]]

/-- A procedure that binds a name, displays its value and returns a closure over it does all of this
twice. The two closures are written in the same way, and are not equal. -/
theorem repeated_call_of_closure_maker :
    ∃ (session : Session) (f v v' : Value), session.Reachable ∧ session.store.Has f ∧
      (apply 4 f []).outcome session = .ok v ∧
      (apply 4 f []).outcome ((apply 4 f []).after session) = .ok v' ∧
      (∃ text events, session.Adds text events ((apply 4 f []).after session) ∧
        ((apply 4 f []).after session).Adds text events
          ((apply 4 f []).after ((apply 4 f []).after session))) ∧
      ((apply 4 f []).after session).output = "1\n" ∧
      v'.render = v.render ∧ (v == v') = false := by
  let f : Value :=
    .closure { name := none, params := [], scope := 0, id := 0 } Value.closureMakerBody
  let s₁ : Session := Eval.newRoot.after {}
  let session : Session := (Eval.makeClosure [] Value.closureMakerBody 0).after s₁
  have hbody : ∀ st : Store, ∀ x ∈ Value.closureMakerBody, st.Has x := by
    simp [Value.closureMakerBody, Has]
  have h₁ : Session.Step {} s₁ := .root {}
  have h₂ : Session.Step s₁ session := .closure [] (by decide) (hbody s₁.store)
  have hreachable : session.Reachable := (Relation.ReflTransGen.single h₁).tail h₂
  have hf : session.store.Has f :=
    Value.everyClosure_closure.2 ⟨⟨by decide, by decide⟩, hbody session.store⟩
  have hargs : ∀ x ∈ ([] : List Value), session.store.Has x :=
    fun x hx => absurd hx List.not_mem_nil
  obtain ⟨hadds, ρ, -, hvalue, -⟩ := repeated_call 4 hreachable hf hargs
  have hfirst : (apply 4 f []).outcome session =
      .ok (.closure { name := none, params := [], scope := 1, id := 1 } [.atom "n"]) := by
    with_unfolding_all rfl
  have hsecond : (apply 4 f []).outcome ((apply 4 f []).after session) =
      .ok (.closure { name := none, params := [], scope := 2, id := 2 } [.atom "n"]) := by
    dsimp only [f, session, s₁]
    with_unfolding_all rfl
  obtain ⟨v', hv', -, hrender, -⟩ := hvalue _ hfirst
  obtain rfl := Except.ok.inj (hsecond.symm.trans hv')
  exact ⟨session, f, _, _, hreachable, hf, hfirst, hsecond, hadds,
    by with_unfolding_all rfl, hrender, by decide⟩

end AtomLisp
