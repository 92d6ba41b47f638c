import AtomLisp.Proofs.Regimes
import Mathlib.Logic.Relation

/-!
# Hosts and the values they get

A host has no other closures than those it has got from the interpreter: as values, in the contexts
of errors, or by making them. It puts values together from what it has, binds them, evaluates them
and hands them over as arguments. A regime that lets every expression be evaluated holds of whatever
a host gets (`Regime.Oversees.later`).

The values of a host are those at hand at some moment. As a host can evaluate the parts of a form
one by one, open scopes and apply what it gets, the moments amid the evaluation of a form are states
of a host as well. Loading the library is running its texts. Whether the scopes that a host names
exist is of no importance here.
-/

namespace AtomLisp

/-- The values that a computation hands to its host: the value that it has, or the forms in the
context of its error. -/
def Eval.handedOut (act : Eval Value) (session : Session) : List Value :=
  match act.outcome session with
  | .ok v => [v]
  | .error (.error e) => e.context
  | .error .tooDeep => []

/-- A session, and the values that have been got from it. -/
structure Host where
  session : Session := {}
  values : List Value := []

namespace Host

/-- The host can put the value together: every closure within it is within a value that it has. -/
def Holds (host : Host) (v : Value) : Prop :=
  v.EveryProcedure fun head body => ∃ u ∈ host.values, Value.Occurs (.closure head body) u

/-- The value is one that the host has or that a scope binds, or is within such a value. -/
def Occurs (host : Host) (v : Value) : Prop :=
  (∃ u ∈ host.values, Value.Occurs v u) ∨
    ∃ s name b, host.session.store.binding? s name = some b ∧ Value.Occurs v b.held

/-- The host after a computation, whether it has a value or stops. -/
def perform (host : Host) (act : Eval Value) : Host where
  session := act.after host.session
  values := act.handedOut host.session ++ host.values

/-- What a host can ask the interpreter for. -/
inductive Action (host : Host) : Eval Value → Prop where
  | lookup (scope : ScopeId) (name : String) : Action host (Eval.lookup scope name)
  | define (scope : ScopeId) (name : String) {v : Value} : host.Holds v →
      Action host (Eval.define scope name v)
  | closure (scope : ScopeId) (params : List String) {body : List Value} :
      (∀ x ∈ body, host.Holds x) → Action host (Eval.makeClosure params body scope)
  | eval (depth : Nat) (scope : ScopeId) {x : Value} : host.Holds x →
      Action host (eval depth x scope)
  | sequence (depth : Nat) (scope : ScopeId) {exprs : List Value} :
      (∀ x ∈ exprs, host.Holds x) → Action host (evalSequence depth exprs scope)
  | apply (depth : Nat) {procedure : Value} {args : List Value} : host.Holds procedure →
      (∀ x ∈ args, host.Holds x) → Action host (apply depth procedure args)
  | run (depth : Nat) (scope : ScopeId) (source : String) : Action host (run depth source scope)

/-- What a host does. Opening and releasing scopes yields no values. -/
inductive Step : Host → Host → Prop where
  | perform {host : Host} {act : Eval Value} : host.Action act → Step host (host.perform act)
  | root (host : Host) : Step host { host with session := Eval.newRoot.after host.session }
  | extend {host : Host} (scope : ScopeId) {bindings : List (String × Value)} :
      (∀ binding ∈ bindings, host.Holds binding.2) →
      Step host { host with session := (Eval.extend scope bindings).after host.session }
  | release (host : Host) (scope : ScopeId) :
      Step host { host with session :=
        { host.session with store := host.session.store.release scope } }

/-- The second host is a later state of the first one. -/
abbrev Later : Host → Host → Prop :=
  Relation.ReflTransGen Step

/-- The host is in a state that can be reached from an empty session. -/
def Reachable (host : Host) : Prop :=
  Later {} host

/-- What a host has got it keeps. -/
theorem Later.mem_values {host later : Host} (h : Later host later) {v : Value}
    (hv : v ∈ host.values) : v ∈ later.values := by
  induction h with
  | refl => exact hv
  | tail _ hstep ih =>
    cases hstep with
    | perform _ => exact List.mem_append_right _ ih
    | root => exact ih
    | extend _ _ => exact ih
    | release _ => exact ih

end Host

/-! ### A regime holds of what a host gets -/

namespace Regime

variable {Account : Type} [Preorder Account] {R : Regime Account} {w : Account} {host : Host}

/-- All that occurs may occur: what scopes bind, and what the host has got. -/
structure Oversees (R : Regime Account) (w : Account) (host : Host) : Prop where
  governs : R.Governs w host.session.store
  admits (v : Value) (h : v ∈ host.values) : R.Admits w v

namespace Oversees

theorem occurs (h : R.Oversees w host) {head : ClosureHead} {body : List Value}
    (hocc : host.Occurs (.closure head body)) : R.procedure w head body := by
  obtain ⟨u, hu, hocc⟩ | ⟨s, name, b, hb, hocc⟩ := hocc
  · exact h.admits u hu head body hocc
  · exact h.governs.admits s name b hb head body hocc

theorem holds (h : R.Oversees w host) {v : Value} (hv : host.Holds v) : R.Admits w v := by
  intro head body hocc
  obtain ⟨u, hu, hocc'⟩ := hv head body hocc
  exact h.occurs (.inl ⟨u, hu, hocc'⟩)

/-- A computation that stays within the regime hands out nothing that may not occur. -/
theorem perform (h : R.Oversees w host) {act : Eval Value} (hact : R.Obeys w R.Admits act) :
    ∃ w', w ≤ w' ∧ R.Oversees w' (host.perform act) := by
  have hends := hact w host.session le_rfl h.governs
  have hold : ∀ w', w ≤ w' → ∀ v ∈ host.values, R.Admits w' v :=
    fun w' hle v hv => (h.admits v hv).mono hle
  rw [Host.perform, Eval.handedOut, Eval.outcome, Eval.after]
  generalize act host.session = result at hends
  cases hends with
  | @value w' v t hle hgoverns hv =>
    refine ⟨w', hle, hgoverns, fun u hu => ?_⟩
    rcases List.mem_cons.1 hu with rfl | hu
    · exact hv
    · exact hold w' hle u hu
  | @error w' e t hle hgoverns hpermits =>
    refine ⟨w', hle, hgoverns, fun u hu => ?_⟩
    rcases List.mem_append.1 hu with hu | hu
    · exact hpermits.context u hu
    · exact hold w' hle u hu
  | @tooDeep w' t hle hgoverns => exact ⟨w', hle, hgoverns, hold w' hle⟩

variable (hany : ∀ x, R.expression x)
include hany

/-- What a host can ask for stays within every regime in which all expressions may be evaluated. -/
theorem action (h : R.Oversees w host) {act : Eval Value} (hact : host.Action act) :
    R.Obeys w R.Admits act := by
  have hcovers : ∀ x, host.Holds x → R.Covers w x := fun x hx => ⟨hany x, h.holds hx⟩
  cases hact with
  | lookup scope name => exact .lookup scope name
  | define scope name hv => exact .define scope name (h.holds hv)
  | closure scope params hbody =>
    exact .makeClosure params scope fun x hx => hcovers x (hbody x hx)
  | eval depth scope hx => exact R.obeys_eval depth w _ scope (hcovers _ hx)
  | sequence depth scope hexprs =>
    exact obeys_evalSequence depth (fun x hx => hcovers x (hexprs x hx)) scope
  | apply depth hprocedure hargs =>
    exact obeys_apply depth (h.holds hprocedure) fun x hx => h.holds (hargs x hx)
  | run depth scope source =>
    refine obeys_runForms depth (fun x hx => ⟨hany x, ?_⟩) scope
    exact read_everyProcedure _ source x hx

/-- A step of the host leaves a world in which all that occurs may occur. -/
theorem step (h : R.Oversees w host) {next : Host} (hstep : host.Step next) :
    ∃ w', w ≤ w' ∧ R.Oversees w' next := by
  cases hstep with
  | perform hact => exact h.perform (h.action hany hact)
  | root => exact ⟨w, le_rfl, h.governs.addScope none, h.admits⟩
  | extend scope hbindings =>
    have hadmits := fun binding hbinding => h.holds (hbindings binding hbinding)
    exact ⟨w, le_rfl, h.governs.extend scope hadmits, h.admits⟩
  | release scope => exact ⟨w, le_rfl, h.governs.release scope, h.admits⟩

/-- Whatever a host does, the regime goes on to oversee it. -/
theorem later (h : R.Oversees w host) {later : Host} (hlater : Host.Later host later) :
    ∃ w', w ≤ w' ∧ R.Oversees w' later := by
  induction hlater with
  | refl => exact ⟨w, le_rfl, h⟩
  | tail _ hstep ih =>
    obtain ⟨w₁, hle₁, h₁⟩ := ih
    obtain ⟨w₂, hle₂, h₂⟩ := h₁.step hany hstep
    exact ⟨w₂, le_trans hle₁ hle₂, h₂⟩

end Oversees

end Regime

end AtomLisp
