import AtomLisp.Proofs.Pervasive
import AtomLisp.Proofs.Preservation

/-!
# What has been written is never looked at

Evaluation adds to the output and to the events, and does not depend on what they already hold. So a
computation writes the same, and ends in the same way, whatever has been written before it: what it
does is a matter of the store alone (`Eval.Appends.eq_of_store`). Every step of evaluation appends,
and so do whole programs (`run_appends`).
-/

namespace AtomLisp

/-- The session, with a text that was written and events that were noted before all that it
holds. -/
def Session.since (text : String) (events : Array Event) (session : Session) : Session where
  store := session.store
  output := text ++ session.output
  events := events ++ session.events

/-- A session is its store, with all that has been written and noted before. -/
theorem Session.eq_since (session : Session) :
    session = ({ store := session.store } : Session).since session.output session.events := by
  simp [since]

namespace Eval

variable {α β : Type}

/-- With more written and noted before it, the computation does the same. -/
def Appends (act : Eval α) : Prop :=
  ∀ text events session, act (session.since text events) = match act session with
    | .ok a t => .ok a (t.since text events)
    | .error stop t => .error stop (t.since text events)

namespace Appends

theorem pure (a : α) : (Pure.pure a : Eval α).Appends :=
  fun _ _ _ => rfl

theorem raise (fault : Fault) : (Eval.raise fault : Eval α).Appends :=
  fun _ _ _ => rfl

theorem tooDeep : (throw .tooDeep : Eval α).Appends :=
  fun _ _ _ => rfl

theorem emit (event : Event) : (Eval.emit event).Appends := by
  intro text events session
  have hevents : (events ++ session.events).push event = events ++ session.events.push event :=
    Array.append_push.symm
  exact congrArg (fun noted => EStateM.Result.ok () { session.since text #[] with events := noted })
    hevents

theorem write (written : String) : (Eval.write written).Appends := by
  intro text events session
  have houtput : text ++ session.output ++ written = text ++ (session.output ++ written) :=
    String.append_assoc
  exact congrArg (fun output => EStateM.Result.ok () { session.since "" events with output })
    houtput

theorem lookup (s : ScopeId) (name : String) : (Eval.lookup s name).Appends :=
  fun _ _ _ => rfl

theorem define (s : ScopeId) (name : String) (v : Value) : (Eval.define s name v).Appends :=
  fun _ _ _ => rfl

theorem extend (s : ScopeId) (bindings : List (String × Value)) :
    (Eval.extend s bindings).Appends :=
  fun _ _ _ => rfl

theorem makeClosure (params : List String) (body : List Value) (s : ScopeId) :
    (Eval.makeClosure params body s).Appends :=
  fun _ _ _ => rfl

theorem within {act : Eval α} (h : act.Appends) (form : Value) :
    (Eval.within form act).Appends := by
  intro text events session
  unfold Eval.within
  rw [h text events session]
  cases act session with
  | ok a t => rfl
  | error stop t => rfl

theorem bind {act : Eval α} {next : α → Eval β} (hact : act.Appends)
    (hnext : ∀ a, (next a).Appends) : (act >>= next).Appends := by
  intro text events session
  simp only [Bind.bind, EStateM.bind]
  rw [hact text events session]
  cases act session with
  | ok a t => exact hnext a text events t
  | error stop t => rfl

/-- To append is a property of computations that their steps pass on. -/
theorem stepwise : Stepwise Appends where
  pure := pure
  raise := raise
  emit := emit
  write := write
  bind := bind

/-- Every step of evaluation appends. -/
theorem pervasive : Pervasive Appends where
  pure := pure
  raise _ _ := raise _
  tooDeep := tooDeep
  bind := bind
  within h := h.within _
  enter name count := emit (.applyClosure name count)
  lookup := lookup
  define := define
  extend := extend
  makeClosure := makeClosure
  call := stepwise.call

/-! ### The store alone decides -/

variable {act : Eval α} (h : act.Appends)
include h

/-- What a computation does in a session is what it does in the store, put after all that the
session holds. -/
theorem eq_of_store (session : Session) :
    act session = match act { store := session.store } with
      | .ok a t => .ok a (t.since session.output session.events)
      | .error stop t => .error stop (t.since session.output session.events) := by
  have hstore := h session.output session.events { store := session.store }
  rwa [← session.eq_since] at hstore

/-- The store alone decides how a computation ends. -/
theorem outcome_eq_of_store (session : Session) :
    act.outcome session = act.outcome { store := session.store } := by
  unfold outcome
  rw [h.eq_of_store session]
  cases act { store := session.store } <;> rfl

/-- What a computation leaves comes after what was written before it. -/
theorem after_eq_of_store (session : Session) : act.after session =
    (act.after { store := session.store }).since session.output session.events := by
  unfold after
  rw [h.eq_of_store session]
  cases act { store := session.store } <;> rfl

end Appends

end Eval

/-- Evaluation does not look at what has been written. -/
theorem eval_appends (depth : Nat) (x : Value) (s : ScopeId) : (eval depth x s).Appends :=
  Eval.Appends.pervasive.eval depth x s

/-- Nor do the forms of a program that are evaluated in order. -/
theorem runForms_appends (depth : Nat) (forms : List Value) (s : ScopeId) :
    (runForms depth forms s).Appends :=
  Eval.Appends.pervasive.runForms (fun form => .emit (.topLevelForm form)) depth forms s

/-- Nor does a program that is run. -/
theorem run_appends (depth : Nat) (source : String) (s : ScopeId) :
    (run depth source s).Appends :=
  runForms_appends depth (read source) s

end AtomLisp
