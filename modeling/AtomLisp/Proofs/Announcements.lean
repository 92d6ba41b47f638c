import AtomLisp.Proofs.Appending
import AtomLisp.Proofs.ProgramPieces

/-!
# Events that announce an end

An error that a program reports, and its wish to end, are announced by an event. The announcement is
the last thing that happens: nothing is applied or begun after it, at whatever depth it is made. So
the events of a program are those of its forms, one form after the other, up to the first one that
fails.

`Announced` says of the events of a computation that they announce how it has ended.
`Eval.Announces.pervasive` proves it for every step of evaluation, `exists_begins` takes the events
of a program apart form by form, and `errors_are_final` puts the two together.
-/

namespace AtomLisp

namespace Event

/-- The fault that an event announces: an error of the program, or its wish to end. -/
def announced? : Event → Option Fault
  | userError message => some (.user message)
  | callBuiltin .quit _ => some .quit
  | _ => none

/-- The event belongs to the evaluation of an expression, and announces nothing. -/
def IsStep : Event → Prop
  | topLevelForm _ => False
  | applyClosure .. => True
  | callBuiltin op _ => op ≠ .quit
  | userError _ => False

theorem IsStep.announced?_eq_none {event : Event} (h : event.IsStep) : event.announced? = none := by
  cases event with
  | callBuiltin op count =>
    cases op with
    | quit => exact absurd rfl h
    | _ => rfl
  | userError message => exact h.elim
  | _ => rfl

/-- Only the report of an error with this message announces it. -/
theorem announced?_eq_user_iff {event : Event} {message : String} :
    event.announced? = some (.user message) ↔ event = .userError message := by
  unfold announced?
  split <;> simp_all

/-- Only the call of the operation that ends the program announces the end. -/
theorem announced?_eq_quit_iff {event : Event} :
    event.announced? = some .quit ↔ ∃ count, event = .callBuiltin .quit count := by
  unfold announced?
  split <;> simp_all

end Event

/-- The events are steps. If the computation has ended for a fault that is announced, one more event
comes after them and announces it. -/
inductive Announced {α : Type} : Except Stop α → List Event → Prop where
  | value (a : α) {steps : List Event} : (∀ event ∈ steps, event.IsStep) →
      Announced (.ok a) steps
  | tooDeep {steps : List Event} : (∀ event ∈ steps, event.IsStep) →
      Announced (.error .tooDeep) steps
  | silent {e : Error} {steps : List Event} : (∀ event ∈ steps, event.IsStep) →
      e.fault.kind ≠ .user → e.fault.kind ≠ .quit → Announced (.error (.error e)) steps
  | fault {e : Error} {steps : List Event} {event : Event} : (∀ event ∈ steps, event.IsStep) →
      event.announced? = some e.fault → Announced (.error (.error e)) (steps ++ [event])

namespace Announced

variable {α β : Type} {result : Except Stop α} {events : List Event}

/-- Steps may come before. -/
theorem append_left {steps : List Event} (hsteps : ∀ event ∈ steps, event.IsStep)
    (h : Announced result events) : Announced result (steps ++ events) := by
  cases h with
  | value a hrest => exact .value a (List.forall_mem_append.2 ⟨hsteps, hrest⟩)
  | tooDeep hrest => exact .tooDeep (List.forall_mem_append.2 ⟨hsteps, hrest⟩)
  | silent hrest huser hquit =>
    exact .silent (List.forall_mem_append.2 ⟨hsteps, hrest⟩) huser hquit
  | fault hrest hevent =>
    rw [← List.append_assoc]
    exact .fault (List.forall_mem_append.2 ⟨hsteps, hrest⟩) hevent

/-- Nothing is announced on the way to a value. -/
theorem isStep_of_value {a : α} (h : Announced (.ok a) events) :
    ∀ event ∈ events, event.IsStep := by
  cases h with
  | value _ hsteps => exact hsteps

/-- What announces a stop does not depend on what value there might have been. -/
theorem of_stop {stop : Stop} (h : Announced (.error stop : Except Stop α) events) :
    Announced (.error stop : Except Stop β) events := by
  cases h with
  | tooDeep hsteps => exact .tooDeep hsteps
  | silent hsteps huser hquit => exact .silent hsteps huser hquit
  | fault hsteps hevent => exact .fault hsteps hevent

/-- Nor does it depend on the context of an error. -/
theorem within {form : Value} {stop : Stop} (h : Announced (.error stop : Except Stop α) events) :
    Announced (.error (stop.within form) : Except Stop α) events := by
  cases h with
  | tooDeep hsteps => exact .tooDeep hsteps
  | silent hsteps huser hquit => exact .silent hsteps huser hquit
  | fault hsteps hevent => exact .fault hsteps hevent

/-- Only the last event may be something else than a step. -/
theorem isStep_of_mem_dropLast (h : Announced result events) :
    ∀ event ∈ events.dropLast, event.IsStep := by
  cases h with
  | value a hsteps => exact fun event hevent => hsteps event (List.mem_of_mem_dropLast hevent)
  | tooDeep hsteps => exact fun event hevent => hsteps event (List.mem_of_mem_dropLast hevent)
  | silent hsteps _ _ => exact fun event hevent => hsteps event (List.mem_of_mem_dropLast hevent)
  | fault hsteps _ => rwa [List.dropLast_concat]

/-- So nothing comes after such an event. -/
theorem eq_nil_of_not_isStep {before after : List Event} {event : Event}
    (h : Announced result (before ++ event :: after)) (hevent : ¬ event.IsStep) : after = [] := by
  by_contra hne
  refine hevent (h.isStep_of_mem_dropLast event ?_)
  rw [List.dropLast_append_of_ne_nil (List.cons_ne_nil event after),
    List.dropLast_cons_of_ne_nil hne]
  exact List.mem_append_right _ List.mem_cons_self

/-- The faults that are announced are announced just when the computation has ended for them. -/
theorem exists_announced_iff (h : Announced result events) {reason : Fault}
    (hreason : reason.kind = .user ∨ reason.kind = .quit) :
    (∃ event ∈ events, event.announced? = some reason) ↔
      ∃ e, result = .error (.error e) ∧ e.fault = reason := by
  have hnone : ∀ {steps : List Event}, (∀ event ∈ steps, event.IsStep) →
      ¬ ∃ event ∈ steps, event.announced? = some reason := by
    rintro steps hsteps ⟨event, hmem, hevent⟩
    rw [(hsteps event hmem).announced?_eq_none] at hevent
    cases hevent
  cases h with
  | value a hsteps => exact iff_of_false (hnone hsteps) fun ⟨_, hresult, _⟩ => by cases hresult
  | tooDeep hsteps => exact iff_of_false (hnone hsteps) fun ⟨_, hresult, _⟩ => by cases hresult
  | silent hsteps huser hquit =>
    refine iff_of_false (hnone hsteps) fun ⟨e, hresult, hfault⟩ => ?_
    cases hresult
    rw [hfault] at huser hquit
    exact hreason.elim huser hquit
  | @fault e steps event hsteps hevent =>
    constructor
    · rintro ⟨other, hmem, hother⟩
      rcases List.mem_append.1 hmem with hmem | hmem
      · exact absurd ⟨other, hmem, hother⟩ (hnone hsteps)
      · rw [List.mem_singleton.1 hmem, hevent] at hother
        exact ⟨e, rfl, Option.some.inj hother⟩
    · rintro ⟨e', hresult, rfl⟩
      cases hresult
      exact ⟨event, List.mem_append_right _ (List.mem_singleton.2 rfl), hevent⟩

end Announced

namespace Eval

variable {α β : Type}

/-- The events that the computation adds to those of the session. -/
def noted (act : Eval α) (session : Session) : List Event :=
  (act.after session).events.toList.drop session.events.size

/-- What a computation notes is what stands after the events before it. -/
theorem noted_eq {act : Eval α} {session : Session} {events : List Event}
    (h : (act.after session).events.toList = session.events.toList ++ events) :
    act.noted session = events := by
  rw [noted, h, ← Array.length_toList, List.drop_left]

/-- The computation adds events, and they announce how it ends. -/
def Announces (act : Eval α) : Prop :=
  ∀ session, ∃ events, (act.after session).events.toList = session.events.toList ++ events ∧
    Announced (act.outcome session) events

namespace Announces

/-- A computation that has a value and adds no event announces its end. -/
theorem of_value {act : Eval α}
    (h : ∀ session, ∃ a, act.outcome session = .ok a ∧
      (act.after session).events = session.events) :
    act.Announces := by
  intro session
  obtain ⟨a, ha, hevents⟩ := h session
  rw [ha, hevents]
  exact ⟨[], (List.append_nil _).symm, .value a (List.forall_mem_nil _)⟩

theorem pure (a : α) : (Pure.pure a : Eval α).Announces :=
  of_value fun _ => ⟨a, rfl, rfl⟩

/-- A fault that is neither the program's own nor its wish to end needs no announcement. -/
theorem raise {reason : Fault} (huser : reason.kind ≠ .user) (hquit : reason.kind ≠ .quit) :
    (Eval.raise reason : Eval α).Announces :=
  fun _ => ⟨[], (List.append_nil _).symm, .silent (List.forall_mem_nil _) huser hquit⟩

theorem tooDeep : (throw .tooDeep : Eval α).Announces :=
  fun _ => ⟨[], (List.append_nil _).symm, .tooDeep (List.forall_mem_nil _)⟩

theorem emit {event : Event} (h : event.IsStep) : (Eval.emit event).Announces :=
  fun _ => ⟨[event], Array.toList_push, .value () (List.forall_mem_singleton.2 h)⟩

theorem write (text : String) : (Eval.write text).Announces :=
  of_value fun _ => ⟨(), rfl, rfl⟩

/-- The first of two steps announces nothing if the second one is taken at all. -/
theorem bind {act : Eval α} {next : α → Eval β} (hact : act.Announces)
    (hnext : ∀ a, (next a).Announces) : (act >>= next).Announces := by
  intro session
  obtain ⟨first, hfirst, hannounced⟩ := hact session
  cases houtcome : act.outcome session with
  | ok a =>
    obtain ⟨rest, hrest, hend⟩ := hnext a (act.after session)
    rw [houtcome] at hannounced
    refine ⟨first ++ rest, ?_, ?_⟩
    · rw [after_bind_of_ok houtcome, hrest, hfirst, List.append_assoc]
    · rw [outcome_bind_of_ok houtcome]
      exact hend.append_left hannounced.isStep_of_value
  | error stop =>
    rw [houtcome] at hannounced
    refine ⟨first, ?_, ?_⟩
    · rw [after_bind_of_error houtcome, hfirst]
    · rw [outcome_bind_of_error houtcome]
      exact hannounced.of_stop

theorem within {form : Value} {act : Eval α} (h : act.Announces) :
    (Eval.within form act).Announces := by
  intro session
  obtain ⟨events, hevents, hannounced⟩ := h session
  refine ⟨events, ?_, ?_⟩
  · rw [after_within, hevents]
  · unfold outcome at hannounced ⊢
    unfold Eval.within
    cases hact : act session with
    | ok a later =>
      rw [hact] at hannounced
      exact hannounced
    | error stop later =>
      rw [hact] at hannounced
      exact hannounced.within

/-- An announcement is followed by nothing but the fault that it announces. -/
theorem emit_raise {event : Event} {reason : Fault} (h : event.announced? = some reason) :
    (Eval.emit event >>= fun _ => Eval.raise reason : Eval α).Announces :=
  fun _ => ⟨[event], Array.toList_push, .fault (List.forall_mem_nil _) h⟩

/-- Operations announce the errors that programs report, and their wish to end, and no others. -/
theorem call (op : Builtin) (args : List Value) : (op.call args).Announces := by
  obtain ⟨act, hact, heq⟩ := op.exists_act args
  rw [heq]
  cases hact with
  | value text hop => exact bind (emit hop) fun _ => pure _
  | write written text hop => exact bind (emit hop) fun _ => bind (write written) fun _ => pure _
  | fault hop hreason =>
    exact bind (emit hop) fun _ => raise (hreason.kind_ne (by decide)) (hreason.kind_ne (by decide))
  | raise message =>
    exact bind (emit (by simp [Event.IsStep])) fun _ => emit_raise rfl
  | quit => exact emit_raise rfl

/-- Every step of evaluation announces its end. -/
theorem pervasive : Pervasive Announces where
  pure := pure
  raise := raise
  tooDeep := tooDeep
  bind := bind
  within := within
  enter _ _ := emit trivial
  lookup s name := of_value fun session => ⟨session.store.lookup s name, rfl, rfl⟩
  define _ name v := of_value fun _ => ⟨v.named name, rfl, rfl⟩
  extend _ _ := of_value fun session => ⟨session.store.nextScope, rfl, rfl⟩
  makeClosure params body s := of_value fun session =>
    ⟨session.store.nextClosure params body s, rfl, rfl⟩
  call := call

/-- The events that a computation adds are the ones that announce its end. -/
theorem noted {act : Eval α} (h : act.Announces) (session : Session) :
    (act.after session).events.toList = session.events.toList ++ act.noted session ∧
      Announced (act.outcome session) (act.noted session) := by
  obtain ⟨events, hevents, hannounced⟩ := h session
  rw [noted_eq hevents]
  exact ⟨hevents, hannounced⟩

end Announces

/-! ### The store alone decides what is noted -/

namespace Appends

variable {act : Eval α} (h : act.Appends)
include h

/-- The events before a computation stay, and those that it adds depend on the store alone. -/
theorem events_after_eq_of_store (session : Session) :
    (act.after session).events.toList =
      session.events.toList ++ (act.after { store := session.store }).events.toList := by
  rw [h.after_eq_of_store session]
  exact Array.toList_append

/-- What a computation notes depends on the store alone. -/
theorem noted_eq_of_store (session : Session) :
    act.noted session = (act.after { store := session.store }).events.toList :=
  noted_eq (h.events_after_eq_of_store session)

/-- A computation adds what it notes to the events before it. -/
theorem events_after (session : Session) :
    (act.after session).events.toList = session.events.toList ++ act.noted session := by
  rw [h.noted_eq_of_store, h.events_after_eq_of_store]

/-- Where the first step has a value, its events are followed by those of the rest. -/
theorem noted_bind_of_ok {next : α → Eval β} (hnext : ∀ a, (next a).Appends)
    {session : Session} {a : α} (ha : act.outcome session = .ok a) :
    (act >>= next).noted session = act.noted session ++ (next a).noted (act.after session) := by
  refine noted_eq ?_
  rw [after_bind_of_ok ha, (hnext a).events_after, h.events_after, List.append_assoc]

end Appends

end Eval

open Eval

/-! ### The forms of a program -/

/-- The session in which form number `i` is evaluated: the one that the forms before it leave. -/
def sessionBefore (depth : Nat) (forms : List Value) (s : ScopeId) (session : Session) (i : Nat) :
    Session :=
  (runForms depth (forms.take i) s).after session

/-- How form number `i` ends, if there is one. -/
def outcomeAt? (depth : Nat) (forms : List Value) (s : ScopeId) (session : Session) (i : Nat) :
    Option (Except Stop Value) :=
  forms[i]?.map fun form => (eval depth form s).outcome (sessionBefore depth forms s session i)

/-- Of the forms of a program, `k` are begun: all of them if each has a value, and else those up to
the first one that has none. -/
structure Begins (depth : Nat) (forms : List Value) (s : ScopeId) (session : Session) (k : Nat) :
    Prop where
  le_length : k ≤ forms.length
  before_last (i : Nat) (hi : i + 1 < k) : ∃ v, outcomeAt? depth forms s session i = some (.ok v)
  last : (k = forms.length ∧
      ∀ i < k, ∃ v, outcomeAt? depth forms s session i = some (.ok v)) ∨
    ∃ i stop, k = i + 1 ∧ outcomeAt? depth forms s session i = some (.error stop)

/-- The text that an event shows of a form that is about to be evaluated. -/
def Event.form? : Event → Option String
  | topLevelForm form => some form
  | _ => none

/-- The events of the first `k` forms: the notice of each one, and then those of evaluating it. -/
def eventsOfForms (depth : Nat) (forms : List Value) (s : ScopeId) (session : Session) (k : Nat) :
    List Event :=
  (forms.take k).zipIdx.flatMap fun (form, i) =>
    .topLevelForm form.short :: (eval depth form s).noted (sessionBefore depth forms s session i)

section Forms

variable {depth : Nat} {s : ScopeId} {session : Session} (x : Value) (xs : List Value)

/-- A program of a single form announces it and evaluates it. -/
theorem runForms_singleton (depth : Nat) (s : ScopeId) :
    runForms depth [x] s = Eval.emit (.topLevelForm x.short) >>= fun _ => eval depth x s := by
  unfold runForms Evaluator.program
  rw [List.foldlM_cons]
  exact bind_pure _

theorem outcome_runForms_singleton (depth : Nat) (s : ScopeId) (session : Session) :
    (runForms depth [x] s).outcome session = (eval depth x s).outcome session := by
  rw [runForms_singleton, (eval_appends depth x s).outcome_eq_of_store session]
  exact (eval_appends depth x s).outcome_eq_of_store _

/-- The events of a single form come after the one that announces it. -/
theorem noted_runForms_singleton (depth : Nat) (s : ScopeId) (session : Session) :
    (runForms depth [x] s).noted session =
      .topLevelForm x.short :: (eval depth x s).noted session := by
  let notice : Eval Unit := Eval.emit (.topLevelForm x.short)
  have hnotice : notice.noted session = [.topLevelForm x.short] := noted_eq Array.toList_push
  rw [runForms_singleton,
    (Appends.emit _).noted_bind_of_ok (fun _ => eval_appends depth x s) rfl, hnotice,
    (eval_appends depth x s).noted_eq_of_store, (eval_appends depth x s).noted_eq_of_store session]
  rfl

/-- Where the first form has a value, the others are run in the session that it leaves. -/
theorem after_runForms_cons_of_ok {v : Value} (h : (eval depth x s).outcome session = .ok v) :
    (runForms depth (x :: xs) s).after session =
      (runForms depth xs s).after ((runForms depth [x] s).after session) := by
  have hx := (outcome_runForms_singleton x depth s session).trans h
  rw [← List.singleton_append, runForms_append, after_bind_of_ok hx]
  cases xs <;> rfl

/-- Where it has none, they are not run. -/
theorem after_runForms_cons_of_error {stop : Stop}
    (h : (eval depth x s).outcome session = .error stop) :
    (runForms depth (x :: xs) s).after session = (runForms depth [x] s).after session := by
  have hx := (outcome_runForms_singleton x depth s session).trans h
  rw [← List.singleton_append, runForms_append, after_bind_of_error hx]

/-- Once the first form has a value, later forms begin where the rest would. -/
theorem sessionBefore_succ {v : Value} (h : (eval depth x s).outcome session = .ok v) (i : Nat) :
    sessionBefore depth (x :: xs) s session (i + 1) =
      sessionBefore depth xs s ((runForms depth [x] s).after session) i := by
  rw [sessionBefore, List.take_succ_cons, after_runForms_cons_of_ok _ _ h, sessionBefore]

/-- Once the first form has a value, the events of the rest follow its own. -/
theorem eventsOfForms_succ {v : Value} (h : (eval depth x s).outcome session = .ok v) (k : Nat) :
    eventsOfForms depth (x :: xs) s session (k + 1) =
      (runForms depth [x] s).noted session ++
        eventsOfForms depth xs s ((runForms depth [x] s).after session) k := by
  rw [eventsOfForms, List.take_succ_cons, List.zipIdx_cons', List.flatMap_cons, List.flatMap_map,
    noted_runForms_singleton, eventsOfForms]
  simp only [Prod.map, id, sessionBefore_succ x xs h]
  rfl

/-- Once the first form has a value, later forms end as they do in the rest. -/
theorem outcomeAt?_succ {v : Value} (h : (eval depth x s).outcome session = .ok v) (i : Nat) :
    outcomeAt? depth (x :: xs) s session (i + 1) =
      outcomeAt? depth xs s ((runForms depth [x] s).after session) i := by
  rw [outcomeAt?, sessionBefore_succ x xs h, List.getElem?_cons_succ, outcomeAt?]

namespace Begins

theorem nil (depth : Nat) (s : ScopeId) (session : Session) : Begins depth [] s session 0 where
  le_length := Nat.le_refl 0
  before_last _ hi := absurd hi (Nat.not_lt_zero _)
  last := .inl ⟨rfl, fun _ hi => absurd hi (Nat.not_lt_zero _)⟩

/-- A form that fails is the last one to be begun. -/
theorem cons_of_error {stop : Stop} (h : (eval depth x s).outcome session = .error stop) :
    Begins depth (x :: xs) s session 1 where
  le_length := Nat.succ_le_succ (Nat.zero_le _)
  before_last _ hi := by omega
  last := .inr ⟨0, stop, rfl, congrArg some h⟩

/-- A form with a value is begun before those that the rest begins. -/
theorem cons_of_ok {v : Value} (h : (eval depth x s).outcome session = .ok v) {k : Nat}
    (hk : Begins depth xs s ((runForms depth [x] s).after session) k) :
    Begins depth (x :: xs) s session (k + 1) where
  le_length := Nat.succ_le_succ hk.le_length
  before_last i hi := by
    cases i with
    | zero => exact ⟨v, congrArg some h⟩
    | succ i =>
      rw [outcomeAt?_succ x xs h]
      exact hk.before_last i (by omega)
  last := by
    rcases hk.last with ⟨hlength, hall⟩ | ⟨i, stop, rfl, hstop⟩
    · refine .inl ⟨congrArg (· + 1) hlength, fun i hi => ?_⟩
      cases i with
      | zero => exact ⟨v, congrArg some h⟩
      | succ i =>
        rw [outcomeAt?_succ x xs h]
        exact hall i (by omega)
    · exact .inr ⟨i + 1, stop, rfl, (outcomeAt?_succ x xs h i).trans hstop⟩

end Begins

end Forms

/-- The events of a program are those of its forms, one form after the other, up to the first one
that fails. -/
theorem exists_begins (depth : Nat) (forms : List Value) (s : ScopeId) (session : Session) :
    ∃ k, Begins depth forms s session k ∧
      (runForms depth forms s).noted session = eventsOfForms depth forms s session k := by
  induction forms generalizing session with
  | nil => exact ⟨0, .nil depth s session, noted_eq (List.append_nil _).symm⟩
  | cons x xs ih =>
    cases houtcome : (eval depth x s).outcome session with
    | error stop =>
      refine ⟨1, .cons_of_error x xs houtcome, ?_⟩
      have hevents : eventsOfForms depth (x :: xs) s session 1 =
          (runForms depth [x] s).noted session := by
        rw [noted_runForms_singleton]
        exact List.append_nil _
      rw [hevents]
      refine noted_eq ?_
      rw [after_runForms_cons_of_error x xs houtcome]
      exact (runForms_appends depth [x] s).events_after session
    | ok v =>
      obtain ⟨k, hk, hnoted⟩ := ih ((runForms depth [x] s).after session)
      refine ⟨k + 1, .cons_of_ok x xs houtcome hk, ?_⟩
      rw [eventsOfForms_succ x xs houtcome, ← hnoted]
      refine noted_eq ?_
      rw [after_runForms_cons_of_ok x xs houtcome, (runForms_appends depth xs s).events_after,
        (runForms_appends depth [x] s).events_after, List.append_assoc]

/-- Evaluation announces how it ends. -/
theorem eval_announces (depth : Nat) (x : Value) (s : ScopeId) : (eval depth x s).Announces :=
  Announces.pervasive.eval depth x s

/-- The events of evaluation notice no form of a program. -/
theorem Announced.form?_eq_none {α : Type} {result : Except Stop α} {events : List Event}
    (h : Announced result events) : ∀ event ∈ events, event.form? = none := by
  have hsteps : ∀ event : Event, event.IsStep → event.form? = none := by
    intro event hevent
    cases event with
    | topLevelForm form => exact hevent.elim
    | _ => rfl
  have hannouncement : ∀ event : Event, event.announced? ≠ none → event.form? = none := by
    intro event hevent
    cases event with
    | topLevelForm form => exact absurd rfl hevent
    | _ => rfl
  cases h with
  | value _ h => exact fun event hmem => hsteps event (h event hmem)
  | tooDeep h => exact fun event hmem => hsteps event (h event hmem)
  | silent h _ _ => exact fun event hmem => hsteps event (h event hmem)
  | @fault e steps last h hlast =>
    refine List.forall_mem_append.2 ⟨fun event hmem => hsteps event (h event hmem), ?_⟩
    refine List.forall_mem_singleton.2 (hannouncement last ?_)
    rw [hlast]
    exact Option.some_ne_none _

/-- The notices of a program are those of the forms that are begun. -/
theorem filterMap_form?_eventsOfForms (depth : Nat) (forms : List Value) (s : ScopeId)
    (session : Session) (k : Nat) :
    (eventsOfForms depth forms s session k).filterMap Event.form? =
      (forms.take k).map Value.short := by
  have hnone : ∀ x session', ((eval depth x s).noted session').filterMap Event.form? = [] :=
    fun x session' => List.filterMap_eq_nil_iff.2
      ((eval_announces depth x s).noted session').2.form?_eq_none
  have hforms : (forms.take k).zipIdx.map Prod.fst = forms.take k := List.zipIdx_map_fst ..
  unfold eventsOfForms
  rw [List.filterMap_flatMap]
  simp only [List.filterMap_cons, Event.form?, hnone]
  rw [← List.map_eq_flatMap, ← congrArg (List.map Value.short) hforms, List.map_map]
  rfl

/-- **Errors are final.** Evaluate an expression, and look at the events that this adds to those of
the session. An event that announces an error of the program, or its wish to end, is the last one of
all; it is there just when evaluation ends with this error, and with this message, or with this
wish. Run a program, and look at its events: they are, form by form, the notice of the form and then
the events of evaluating it in the session that the forms before it leave. The forms are the first
ones of the program up to the one that fails, or all of them if none does. -/
theorem errors_are_final (depth : Nat) (s : ScopeId) (session : Session) :
    (∀ x, ((eval depth x s).after session).events.toList =
        session.events.toList ++ (eval depth x s).noted session ∧
      (∀ before event after, (eval depth x s).noted session = before ++ event :: after →
        event.announced? ≠ none → after = []) ∧
      (∀ message, .userError message ∈ (eval depth x s).noted session ↔
        ∃ e, (eval depth x s).outcome session = .error (.error e) ∧ e.fault = .user message) ∧
      ((∃ count, .callBuiltin .quit count ∈ (eval depth x s).noted session) ↔
        ∃ e, (eval depth x s).outcome session = .error (.error e) ∧ e.fault = .quit)) ∧
    ∀ source, ((run depth source s).after session).events.toList =
        session.events.toList ++ (run depth source s).noted session ∧
      ∃ k, Begins depth (read source) s session k ∧
        (run depth source s).noted session = eventsOfForms depth (read source) s session k ∧
        ((run depth source s).noted session).filterMap Event.form? =
          ((read source).take k).map Value.short := by
  refine ⟨fun x => ?_, fun source => ?_⟩
  · obtain ⟨hevents, hannounced⟩ := (eval_announces depth x s).noted session
    refine ⟨hevents, fun before event after heq hevent => ?_, fun message => ?_, ?_⟩
    · rw [heq] at hannounced
      exact hannounced.eq_nil_of_not_isStep fun hstep => hevent hstep.announced?_eq_none
    · rw [← hannounced.exists_announced_iff (.inl rfl)]
      simp only [Event.announced?_eq_user_iff, exists_eq_right]
    · rw [← hannounced.exists_announced_iff (.inr rfl)]
      simp only [Event.announced?_eq_quit_iff]
      exact ⟨fun ⟨count, hmem⟩ => ⟨_, hmem, count, rfl⟩, fun ⟨_, hmem, count, heq⟩ =>
        ⟨count, heq ▸ hmem⟩⟩
  · obtain ⟨k, hk, hnoted⟩ := exists_begins depth (read source) s session
    refine ⟨(run_appends depth source s).events_after session, k, hk, hnoted, ?_⟩
    rw [← filterMap_form?_eventsOfForms depth (read source) s session k, ← hnoted, run]

/-- A program that asks to end while an operand is evaluated does nothing more. -/
example : (run 4 "(display 1 (quit)) 2" 0).noted (Eval.newRoot.after {}) =
    [.topLevelForm "(display 1 (quit))", .callBuiltin .quit 0] := by
  cbv

end AtomLisp
