import AtomLisp.Proofs.StepsInOrder
import AtomLisp.Proofs.StoreOperations

/-!
# What a computation keeps

A computation is followed by what it does to the store, however it ends. A relation between the
store before and the store after that is reflexive and transitive is kept by a computation if it
is kept by each of its steps. What is true of the store is maintained in the same way, and then
something may be said of the value as well, on which what comes next may rely.
-/

namespace AtomLisp

namespace Eval

variable {α β : Type}

/-- The value of a computation, or the reason for which it stops. -/
def outcome (act : Eval α) (session : Session) : Except Stop α :=
  match act session with
  | .ok a _ => .ok a
  | .error stop _ => .error stop

/-- The session that a computation leaves, whether it has a value or stops. -/
def after (act : Eval α) (session : Session) : Session :=
  match act session with
  | .ok _ session => session
  | .error _ session => session

/-- A computation with a value ends in the session that it leaves. -/
theorem eq_ok_of_outcome {act : Eval α} {session : Session} {a : α}
    (h : act.outcome session = .ok a) : act session = .ok a (act.after session) := by
  unfold outcome at h
  unfold after
  cases hact : act session with
  | ok a' later =>
    rw [hact] at h
    rw [Except.ok.inj h]
  | error stop later =>
    rw [hact] at h
    cases h

/-- The computation takes every store to one that `R` relates it to. -/
def Keeps (R : Store → Store → Prop) (act : Eval α) : Prop :=
  ∀ session : Session, R session.store (act.after session).store

/-- A value by itself leaves the session as it is. -/
theorem after_pure (a : α) (session : Session) : (pure a : Eval α).after session = session := rfl

/-- The second of two steps begins where the first one ends, if that has a value. -/
theorem after_bind (act : Eval α) (next : α → Eval β) (session : Session) :
    (act >>= next).after session = match act session with
      | .ok a session => (next a).after session
      | .error _ session => session := by
  unfold after
  simp only [bind, EStateM.bind]
  cases act session with
  | ok a session => rfl
  | error stop session => rfl

/-- Where steps in order have a value, the first one has one, and the rest starts from what it
leaves. -/
theorem outcome_bind_eq_ok {act : Eval α} {next : α → Eval β} {session : Session} {b : β}
    (h : (act >>= next).outcome session = .ok b) :
    ∃ a, act.outcome session = .ok a ∧ (next a).outcome (act.after session) = .ok b := by
  unfold outcome at h ⊢
  unfold after
  simp only [bind, EStateM.bind] at h
  cases hact : act session with
  | ok a later =>
    rw [hact] at h
    exact ⟨a, rfl, h⟩
  | error stop later =>
    rw [hact] at h
    cases h

section Next

variable {act : Eval α} {session : Session} {a : α} (h : act.outcome session = .ok a)
  (next : α → Eval β)
include h

/-- After a step that has a value, the rest ends as it does from there. -/
theorem outcome_bind_of_ok :
    (act >>= next).outcome session = (next a).outcome (act.after session) := by
  unfold outcome
  simp only [bind, EStateM.bind, eq_ok_of_outcome h]

/-- After a step with a value, the next one goes on. -/
theorem after_bind_of_ok : (act >>= next).after session = (next a).after (act.after session) := by
  rw [after_bind, eq_ok_of_outcome h]

end Next

section Stop

variable {act : Eval α} {session : Session} {stop : Stop} (h : act.outcome session = .error stop)
  (next : α → Eval β)
include h

/-- After a step that stops, there is nothing more. -/
theorem outcome_bind_of_error : (act >>= next).outcome session = .error stop := by
  unfold outcome at h ⊢
  simp only [bind, EStateM.bind]
  cases hact : act session with
  | ok a later =>
    rw [hact] at h
    cases h
  | error stop' later =>
    rw [hact] at h
    exact congrArg Except.error (Except.error.inj h)

/-- After a step that stops, nothing else is done. -/
theorem after_bind_of_error : (act >>= next).after session = act.after session := by
  unfold outcome at h
  rw [after_bind, after]
  cases hact : act session with
  | ok a later =>
    rw [hact] at h
    cases h
  | error stop' later => rfl

end Stop

/-- The context of an error is not part of the session. -/
theorem after_within (form : Value) (act : Eval α) (session : Session) :
    (Eval.within form act).after session = act.after session := by
  unfold after Eval.within
  cases act session with
  | ok a session => rfl
  | error stop session => rfl

/-- A value has no context. -/
theorem outcome_of_within {form : Value} {act : Eval α} {session : Session} {a : α}
    (h : (Eval.within form act).outcome session = .ok a) : act.outcome session = .ok a := by
  unfold outcome Eval.within at h
  unfold outcome
  cases hrun : act session with
  | ok b later =>
    rw [hrun] at h
    exact h
  | error stop later =>
    rw [hrun] at h
    cases h

namespace Keeps

variable {R : Store → Store → Prop}

theorem mono {R' : Store → Store → Prop} {act : Eval α} (h : act.Keeps R)
    (hle : ∀ st st', R st st' → R' st st') : act.Keeps R' :=
  fun session => hle _ _ (h session)

theorem within {form : Value} {act : Eval α} (h : act.Keeps R) :
    (Eval.within form act).Keeps R := by
  intro session
  rw [after_within]
  exact h session

section Reflexive

variable (hrefl : ∀ st, R st st)
include hrefl

theorem pure (a : α) : (Pure.pure a : Eval α).Keeps R :=
  fun session => hrefl session.store

theorem raise (fault : Fault) : (Eval.raise fault : Eval α).Keeps R :=
  fun session => hrefl session.store

theorem tooDeep : (throw .tooDeep : Eval α).Keeps R :=
  fun session => hrefl session.store

theorem emit (event : Event) : (Eval.emit event).Keeps R :=
  fun session => hrefl session.store

theorem write (text : String) : (Eval.write text).Keeps R :=
  fun session => hrefl session.store

theorem lookup (s : ScopeId) (name : String) : (Eval.lookup s name).Keeps R :=
  fun session => hrefl session.store

end Reflexive

theorem makeClosure (h : ∀ st, R st st.countClosure) (params : List String) (body : List Value)
    (s : ScopeId) : (Eval.makeClosure params body s).Keeps R :=
  fun session => h session.store

theorem define {s : ScopeId} {name : String} {v : Value} (h : ∀ st, R st (st.define s name v)) :
    (Eval.define s name v).Keeps R :=
  fun session => h session.store

/-- Two steps keep what is kept over both. -/
theorem bind (htrans : ∀ st₁ st₂ st₃, R st₁ st₂ → R st₂ st₃ → R st₁ st₃)
    {act : Eval α} {next : α → Eval β} (hact : act.Keeps R) (hnext : ∀ a, (next a).Keeps R) :
    (act >>= next).Keeps R := by
  intro session
  have h := hact session
  rw [after_bind]
  rw [after] at h
  cases hrun : act session with
  | ok a session' =>
    rw [hrun] at h
    exact htrans _ _ _ h (hnext a session')
  | error stop session' =>
    rw [hrun] at h
    exact h

/-- A reflexive and transitive relation is kept by steps in order. -/
theorem stepwise (hrefl : ∀ st, R st st)
    (htrans : ∀ st₁ st₂ st₃, R st₁ st₂ → R st₂ st₃ → R st₁ st₃) :
    Stepwise (Keeps R) where
  pure := pure hrefl
  raise := raise hrefl
  emit := emit hrefl
  write := write hrefl
  bind := bind htrans

end Keeps

/-- What `I` says of a store stays true of it, however the computation ends, and if it has a value,
`Q` is true of that. -/
def Maintains (I : Store → Prop) (Q : α → Prop) (act : Eval α) : Prop :=
  ∀ session : Session, I session.store →
    I (act.after session).store ∧ ∀ a, act.outcome session = .ok a → Q a

namespace Maintains

variable {I : Store → Prop} {Q : α → Prop} {R : β → Prop}

theorem pure {a : α} (h : Q a) : Maintains I Q (Pure.pure a) := by
  refine fun session hs => ⟨hs, fun b hb => ?_⟩
  obtain rfl := Except.ok.inj hb
  exact h

theorem raise (reason : Fault) : Maintains I Q (Eval.raise reason) :=
  fun _ hs => ⟨hs, fun _ hb => nomatch hb⟩

theorem tooDeep : Maintains I Q (throw .tooDeep) :=
  fun _ hs => ⟨hs, fun _ hb => nomatch hb⟩

theorem emit (event : Event) : Maintains I (fun _ => True) (Eval.emit event) :=
  fun _ hs => ⟨hs, fun _ _ => trivial⟩

theorem write (text : String) : Maintains I (fun _ => True) (Eval.write text) :=
  fun _ hs => ⟨hs, fun _ _ => trivial⟩

/-- Two steps maintain an invariant if each does, the second one for the value of the first. -/
theorem bind {act : Eval α} {next : α → Eval β} (hact : Maintains I Q act)
    (hnext : ∀ a, Q a → Maintains I R (next a)) : Maintains I R (act >>= next) := by
  intro session hs
  obtain ⟨hafter, hvalue⟩ := hact session hs
  cases houtcome : act.outcome session with
  | ok a =>
    rw [after_bind_of_ok houtcome, outcome_bind_of_ok houtcome]
    exact hnext a (hvalue a houtcome) _ hafter
  | error stop =>
    rw [after_bind_of_error houtcome, outcome_bind_of_error houtcome]
    exact ⟨hafter, fun _ hb => nomatch hb⟩

theorem within {act : Eval α} (h : Maintains I Q act) (form : Value) :
    Maintains I Q (Eval.within form act) := by
  intro session hs
  obtain ⟨hafter, hvalue⟩ := h session hs
  rw [after_within]
  exact ⟨hafter, fun a ha => hvalue a (outcome_of_within ha)⟩

/-- To maintain an invariant is a judgment that steps in order pass on. -/
theorem judgment : Judgment (Maintains I) where
  pure := pure
  raise := raise
  emit := emit
  write := write
  bind := bind

end Maintains

end Eval

end AtomLisp
