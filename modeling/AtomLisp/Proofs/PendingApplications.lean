import AtomLisp.Proofs.FormParts
import AtomLisp.Proofs.Pervasive

/-!
# The context of an error

Evaluation gives an error its context on the way out: every application that the error leaves adds
its form. Here a second kind of computation is defined that goes the other way. It keeps the
applications under way on a stack while it goes in, and an error is given the stack as it stands.
Evaluation of the two kinds is the same.
-/

namespace AtomLisp

/-- A session, and the applications under way in it, the innermost first. -/
structure Tracked where
  session : Session
  pending : List Value := []

/-- A computation that keeps track of the applications under way. -/
abbrev Tracking := EStateM Stop Tracked

namespace Tracking

variable {α : Type}

/-- Carry out a step that evaluates nothing. If it fails, all applications under way are the context
of its error. -/
def step (act : Eval α) : Tracking α := fun tracked =>
  match act tracked.session with
  | .ok a session => .ok a { tracked with session }
  | .error (.error e) session =>
    .error (.error { e with context := tracked.pending }) { tracked with session }
  | .error .tooDeep session => .error .tooDeep { tracked with session }

/-- An application is begun. -/
def push (form : Value) : Tracking Unit :=
  modify fun tracked => { tracked with pending := form :: tracked.pending }

/-- The innermost application has returned. -/
def pop : Tracking Unit :=
  modify fun tracked => { tracked with pending := tracked.pending.tail }

/-- The computation with no application under way. -/
def run (act : Tracking α) : Eval α := fun session =>
  match act { session } with
  | .ok a tracked => .ok a tracked.session
  | .error stop tracked => .error stop tracked.session

end Tracking

/-! ### Evaluation with a stack -/

/-- An application is put on the stack for as long as it is under way. Nothing else is. -/
instance : Steps Tracking where
  step := Tracking.step
  within form act := do
    Tracking.push form
    let v ← act
    Tracking.pop
    return v

instance : LawfulSteps Tracking where
  step_pure _ := rfl

/-- Evaluates an expression in a scope and keeps track of the applications under way. -/
abbrev Tracker := Evaluator Tracking

/-- Evaluation nested to at most `depth` levels, with a stack of the applications under way. -/
def Tracker.eval (depth : Nat) : Tracker :=
  Evaluator.nested depth

/-! ### Which lists are applications -/

/-- A list is no form of its own unless it begins with a keyword. -/
theorem Keyword.heading?_eq_none_iff {items : List Value} :
    heading? items = none ↔ ∀ keyword : Keyword, items.head? ≠ some (.atom keyword.text) := by
  match items with
  | [] => simp [heading?]
  | .atom text :: items =>
    constructor
    · rintro h keyword hhead
      have htext : keyword.text = text := (Value.atom.inj (Option.some.inj hhead)).symm
      have hsome : heading? (.atom text :: items) = some keyword :=
        ofText?_eq_some_iff.2 htext
      rw [h] at hsome
      cases hsome
    · intro h
      cases hheading : heading? (.atom text :: items) with
      | none => rfl
      | some keyword =>
        have htext : keyword.text = text := ofText?_eq_some_iff.1 hheading
        exact absurd (by rw [htext]; rfl) (h keyword)
  | .list _ :: _ => simp [heading?]
  | .builtin _ :: _ => simp [heading?]
  | .closure _ _ :: _ => simp [heading?]

namespace Form

/-- No keyword makes an application. -/
theorem ofOperands_ne_application (whole : Value) (operands items : List Value)
    (keyword : Keyword) : ofOperands whole operands keyword ≠ .ok (.application items) := by
  intro heq
  cases makes_of_ofOperands heq

/-- A list is an application just when it is not headed by the atom of a keyword. -/
theorem ofItems_eq_application_iff {items : List Value} :
    ofItems items = .ok (.application items) ↔
      ∀ keyword : Keyword, items.head? ≠ some (.atom keyword.text) := by
  rw [← Keyword.heading?_eq_none_iff, ofItems]
  cases Keyword.heading? items with
  | none => simp
  | some keyword =>
    refine ⟨fun h => absurd h (ofOperands_ne_application _ _ _ keyword), fun h => ?_⟩
    cases h

end Form

/-! ### The two ways of keeping context -/

namespace Eval

variable {α β : Type}

/-- An error of the computation has no context yet. -/
def Bare (act : Eval α) : Prop :=
  ∀ session e session', act session = .error (.error e) session' → e.context = []

namespace Bare

theorem pure (a : α) : Bare (Pure.pure a : Eval α) := by
  intro session e session' h
  cases h

theorem raise (fault : Fault) : Bare (Eval.raise fault : Eval α) := by
  intro session e session' h
  cases h
  rfl

theorem emit (event : Event) : Bare (Eval.emit event) := by
  intro session e session' h
  cases h

theorem write (text : String) : Bare (Eval.write text) := by
  intro session e session' h
  cases h

theorem bind {act : Eval α} {next : α → Eval β} (hact : act.Bare)
    (hnext : ∀ a, (next a).Bare) : Bare (act >>= next) := by
  intro session e session' h
  simp only [Bind.bind, EStateM.bind] at h
  cases hrun : act session with
  | ok a t =>
    rw [hrun] at h
    exact hnext a t e session' h
  | error stop t =>
    rw [hrun] at h
    cases h
    exact hact session e session' hrun

/-- To fail without a context is a property that steps pass on. -/
theorem stepwise : Stepwise Bare where
  pure := pure
  raise := raise
  emit := emit
  write := write
  bind := bind

/-- A computation that always has a value has no error at all. -/
theorem of_value {act : Eval α} (h : ∀ session, ∃ a t, act session = .ok a t) : Bare act := by
  intro session e session' herror
  obtain ⟨a, t, hact⟩ := h session
  rw [hact] at herror
  cases herror

end Bare

end Eval

namespace Tracking

variable {α β : Type}

/-- With the applications `pending` under way, a computation that keeps a stack has the second
result where the same computation without a stack has the first one. A value leaves the stack as it
was; an error has been given the applications begun since then and those that were under way. -/
inductive Matches (pending : List Value) :
    EStateM.Result Stop Session α → EStateM.Result Stop Tracked α → Prop where
  | ok {a : α} {t : Session} : Matches pending (.ok a t) (.ok a ⟨t, pending⟩)
  | error {e : Error} {t : Session} :
      Matches pending (.error (.error e) t)
        (.error (.error { e with context := e.context ++ pending }) ⟨t, e.context ++ pending⟩)
  | tooDeep {t : Session} {stack : List Value} :
      Matches pending (.error .tooDeep t) (.error .tooDeep ⟨t, stack⟩)

/-- Whatever applications are under way, the second computation does what the first one does. -/
def Follows (act : Eval α) (act' : Tracking α) : Prop :=
  ∀ session pending, Matches pending (act session) (act' ⟨session, pending⟩)

namespace Follows

/-- What fails without a context needs no stack to follow it. -/
theorem step {act : Eval α} (h : act.Bare) : Follows act (Tracking.step act) := by
  intro session pending
  unfold Tracking.step
  cases hrun : act session with
  | ok a t => exact .ok
  | error stop t =>
    cases stop with
    | error e =>
      have herror :
          Matches pending (.error (.error e) t : EStateM.Result Stop Session α) _ := .error
      rw [h session e t hrun, List.nil_append] at herror
      exact herror
    | tooDeep => exact .tooDeep

theorem pure (a : α) : Follows (Pure.pure a) (Pure.pure a) :=
  fun _ _ => .ok

theorem tooDeep : Follows (throw .tooDeep : Eval α) (throw .tooDeep) :=
  fun _ _ => .tooDeep

/-- Steps in order are followed step by step. -/
theorem bind {act : Eval α} {act' : Tracking α} {next : α → Eval β}
    {next' : α → Tracking β}
    (hact : Follows act act') (hnext : ∀ a, Follows (next a) (next' a)) :
    Follows (act >>= next) (act' >>= next') := by
  intro session pending
  have h := hact session pending
  simp only [Bind.bind, EStateM.bind]
  generalize act session = result, act' ⟨session, pending⟩ = result' at h
  cases h with
  | @ok a t => exact hnext a t pending
  | error => exact .error
  | tooDeep => exact .tooDeep

/-- An application that is begun and returned from: errors leave the stack as it is. -/
theorem pushed_eq (act : Tracking α) (form : Value) (session : Session) (pending : List Value) :
    (do
      push form
      let a ← act
      pop
      return a : Tracking α) ⟨session, pending⟩ =
        match act ⟨session, form :: pending⟩ with
        | .ok a t => .ok a { t with pending := t.pending.tail }
        | .error stop t => .error stop t := by
  show EStateM.bind act _ ⟨session, form :: pending⟩ = _
  unfold EStateM.bind
  cases act ⟨session, form :: pending⟩ with
  | ok a t => rfl
  | error stop t => rfl

/-- A form that is pushed, and popped when its application has returned, is in the context of just
those errors that leave the application. -/
theorem within {act : Eval α} {act' : Tracking α} (h : Follows act act') (form : Value) :
    Follows (Eval.within form act) (do
      push form
      let a ← act'
      pop
      return a) := by
  intro session pending
  have hact := h session (form :: pending)
  rw [pushed_eq]
  unfold Eval.within
  generalize act session = result, act' ⟨session, form :: pending⟩ = result' at hact
  cases hact with
  | ok => exact .ok
  | @error e t =>
    have hcontext : e.context ++ form :: pending = (e.within form).context ++ pending := by simp
    rw [hcontext]
    exact .error
  | tooDeep => exact .tooDeep

/-- Each step of evaluation does the same with a stack and without one. -/
theorem respect : Steps.Respect (m := Eval) (n := Tracking) Follows where
  pure := pure
  bind := bind
  raise _ _ := step (.raise _)
  tooDeep := tooDeep
  within h := within h _
  enter _ _ := step (.emit _)
  lookup _ _ := step (.of_value fun _ => ⟨_, _, rfl⟩)
  define _ _ _ := step (.of_value fun _ => ⟨_, _, rfl⟩)
  extend _ _ := step (.of_value fun _ => ⟨_, _, rfl⟩)
  makeClosure _ _ _ := step (.of_value fun _ => ⟨_, _, rfl⟩)
  call op args := step (Eval.Bare.stepwise.call op args)

end Follows

end Tracking

end AtomLisp
