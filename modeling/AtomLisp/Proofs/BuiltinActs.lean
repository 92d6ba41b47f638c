import AtomLisp.Builtin.Call

/-!
# What a builtin operation can do

An operation looks at its arguments and not at the store. Once its call has been noted, it has an
atom as its value, writes a text, or fails; and if it fails, that is for its arguments, or because
the program has asked for it. Whatever is shown of these few acts is true of all operations.
-/

namespace AtomLisp

/-! ### Checks -/

/-- If the check fails, it is not for the shape of a form. -/
def Fault.NeverMalformed {α : Type} (checked : Except Fault α) : Prop :=
  ∀ reason, checked = .error reason → reason.kind ≠ .malformed

/-- The fault lies with arguments: there are too many or too few of them, or one is not what it
should be. -/
def Fault.BlamesArguments (reason : Fault) : Prop :=
  reason.kind ∈ [Kind.argument, .divisionByZero, .overflow, .wrongType]

theorem Fault.BlamesArguments.kind_ne {reason : Fault} (h : reason.BlamesArguments) {kind : Kind}
    (hkind : kind ∉ [Kind.argument, .divisionByZero, .overflow, .wrongType]) :
    reason.kind ≠ kind := by
  rintro rfl
  exact hkind h

/-- If the check fails, it is for a fault with the property `P`. -/
def Fault.FailsFor {α : Type} (P : Fault → Prop) (checked : Except Fault α) : Prop :=
  ∀ reason, checked = .error reason → P reason

namespace Fault.FailsFor

variable {α β : Type} {P : Fault → Prop}

theorem ok (a : α) : FailsFor P (.ok a) := by
  rintro reason ⟨⟩

theorem error {reason : Fault} (h : P reason) :
    FailsFor P (.error reason : Except Fault α) := by
  rintro reason' ⟨⟩
  exact h

/-- The faults of two checks in a row are those of either. -/
theorem bind {checked : Except Fault α} {next : α → Except Fault β}
    (hchecked : FailsFor P checked) (hnext : ∀ a, FailsFor P (next a)) :
    FailsFor P (checked >>= next) := by
  cases checked with
  | ok a => exact hnext a
  | error reason => exact error (hchecked reason rfl)

/-- To read an integer fails for its argument only. -/
theorem toInteger (x : Value) : FailsFor BlamesArguments x.toInteger := by
  cases x with
  | atom text =>
    rw [Value.toInteger]
    split
    · exact ok _
    · exact error (by simp [BlamesArguments, Fault.kind])
  | _ => exact error (by simp [BlamesArguments, Fault.kind])

/-- To ask for a truth value fails for its argument only. -/
theorem truthiness (v : Value) : FailsFor BlamesArguments v.truthiness := by
  unfold Value.truthiness
  split
  · exact ok true
  · exact ok false
  · exact error (by simp [BlamesArguments, Fault.kind])

theorem inRange (i : Int) : FailsFor BlamesArguments (Builtin.inRange i) := by
  rw [Builtin.inRange]
  split
  · exact ok _
  · exact error (by simp [BlamesArguments, Fault.kind])

/-- Combining arguments fails for one of them, or for a result out of the range. -/
theorem accumulate (op : Int → Int → Int) (value : Int) (args : List Value) :
    FailsFor BlamesArguments (Builtin.accumulate op value args) := by
  induction args generalizing value with
  | nil => exact ok value
  | cons x args ih =>
    rw [Builtin.accumulate, List.foldlM_cons]
    exact bind (bind (toInteger x) fun i => inRange (op value i)) ih

theorem difference (args : List Value) : FailsFor BlamesArguments (Builtin.difference args) := by
  cases args with
  | nil => exact ok 0
  | cons x args => exact bind (toInteger x) fun i => accumulate _ i args

theorem quotient (x y : Value) : FailsFor BlamesArguments (Builtin.quotient x y) := by
  refine bind (toInteger x) fun dividend => bind (toInteger y) fun divisor => ?_
  by_cases hzero : divisor = 0
  · rw [if_pos hzero]
    exact error (by simp [BlamesArguments, Fault.kind])
  · rw [if_neg hzero]
    exact inRange _

end Fault.FailsFor

theorem Fault.NeverMalformed.truthiness (v : Value) : NeverMalformed v.truthiness :=
  fun reason hreason => (FailsFor.truthiness v reason hreason).kind_ne (by decide)

/-! ### Acts -/

namespace Builtin

/-- What an operation does once its call has been noted. Only one of them reports an error of the
program, and only one asks the program to end. -/
inductive Act : Builtin → Eval Value → Prop where
  | value {op : Builtin} (text : String) : op ≠ quit → Act op (pure (.atom text))
  | write {op : Builtin} (written text : String) : op ≠ quit →
      Act op (Eval.write written >>= fun _ => pure (.atom text))
  | fault {op : Builtin} {reason : Fault} : op ≠ quit → reason.BlamesArguments →
      Act op (Eval.raise reason)
  | raise (message : String) :
      Act raise (Eval.emit (.userError message) >>= fun _ => Eval.raise (.user message))
  | quit : Act quit (Eval.raise .quit)

/-- An operation does nothing else. -/
theorem exists_act (op : Builtin) (args : List Value) :
    ∃ act, Act op act ∧
      op.call args = Eval.emit (.callBuiltin op args.length) >>= fun _ => act := by
  have hnumber : ∀ {op : Builtin} {result : Except Fault Int}, op ≠ quit →
      Fault.FailsFor Fault.BlamesArguments result →
        Act op (do return .ofInt (← Eval.ofExcept result)) := by
    intro op result hop hresult
    cases result with
    | ok i => exact .value (toString i) hop
    | error reason => exact .fault hop (hresult reason rfl)
  have harity : ∀ {op : Builtin} (expected got : Nat), op ≠ quit →
      Act op (Eval.raise (.builtinArity op expected got)) :=
    fun expected got hop => .fault hop (by simp [Fault.BlamesArguments, Fault.kind])
  unfold Builtin.call
  refine ⟨_, ?_, rfl⟩
  split
  · exact hnumber (by decide) (.accumulate _ _ args)
  · exact hnumber (by decide) (.difference args)
  · exact hnumber (by decide) (.accumulate _ _ args)
  · exact hnumber (by decide) (.quotient _ _)
  · exact harity 2 args.length (by decide)
  · exact .value _ (by decide)
  · exact harity 2 args.length (by decide)
  · exact .write _ _ (by decide)
  · exact .write _ _ (by decide)
  · exact .value _ (by decide)
  · exact .raise _
  · exact .value _ (by decide)
  · exact harity 1 args.length (by decide)
  · exact .quit

/-- A builtin operation emits events and writes text, and then it has an atom as its value or fails,
and not for the shape of a form. So what is true of an atom and of such a fault, and stays true if
an event is emitted or a text is written before, is true of every operation. -/
theorem call_induction {P : Eval Value → Prop} (value : ∀ text, P (pure (.atom text)))
    (fault : ∀ reason : Fault, reason.kind ≠ .malformed → P (Eval.raise reason))
    (emit : ∀ event (next : Eval Value), P next → P (Eval.emit event >>= fun _ => next))
    (write : ∀ text (next : Eval Value), P next → P (Eval.write text >>= fun _ => next))
    (op : Builtin) (args : List Value) : P (op.call args) := by
  obtain ⟨act, hact, heq⟩ := exists_act op args
  rw [heq]
  refine emit _ _ ?_
  cases hact with
  | value text _ => exact value text
  | write written text _ => exact write written _ (value text)
  | fault _ hreason => exact fault _ (hreason.kind_ne (by decide))
  | raise message => exact emit _ _ (fault _ (by simp [Fault.kind]))
  | quit => exact fault _ (by decide)

end Builtin

end AtomLisp
