import AtomLisp.Builtin.Call
import AtomLisp.Proofs.Renaming

/-!
# Renaming and the checks of evaluation

Recognising a form, reading a number, and every other check that can fail without touching the
session: under new numbers it has the same outcome, under the new numbers (`Renaming.onResult`). So
a list is the same form or has the same fault (`Form.ofItems_rename`), and truth values and
arithmetic come out the same (`Value.truthiness_rename`, `Builtin.accumulate_rename`).
-/

namespace AtomLisp

namespace Renaming

variable {α α' β β' : Type} (ρ : Renaming)

/-- The outcome of a check under the new numbers: `f` says what they make of its value. -/
def onResult (f : α → β) : Except Fault α → Except Fault β
  | .ok a => .ok (f a)
  | .error fault => .error (fault.rename ρ)

@[simp] theorem onResult_ok (f : α → β) (a : α) : ρ.onResult f (.ok a) = .ok (f a) := rfl

@[simp] theorem onResult_error (f : α → β) (fault : Fault) :
    ρ.onResult f (.error fault : Except Fault α) = .error (fault.rename ρ) := rfl

/-- Two checks in a row are renamed one after the other. -/
theorem onResult_bind {f : α → α'} {g : β → β'} (x : Except Fault α)
    {next : α → Except Fault β} {next' : α' → Except Fault β'}
    (h : ∀ a, ρ.onResult g (next a) = next' (f a)) :
    ρ.onResult g (x >>= next) = ρ.onResult f x >>= next' := by
  cases x with
  | error fault => rfl
  | ok a => exact h a

/-- The same where the value of the first check has no numbers in it. -/
theorem onResult_bind_id {g : β → β'} (x : Except Fault α) {next : α → Except Fault β}
    {next' : α → Except Fault β'} (h : ∀ a, ρ.onResult g (next a) = next' a) :
    ρ.onResult g (x >>= next) = ρ.onResult id x >>= next' :=
  ρ.onResult_bind x h

end Renaming

variable (ρ : Renaming)

/-! ### Truth values and numbers -/

namespace Value

/-- New numbers do not change what is true. -/
theorem truthiness_rename (v : Value) :
    (v.rename ρ).truthiness = ρ.onResult id v.truthiness := by
  cases v with
  | atom text =>
    rw [rename_atom]
    unfold truthiness
    split <;> simp [Fault.rename]
  | list items => simp [truthiness, Fault.rename]
  | builtin op => simp [truthiness, Fault.rename]
  | closure head body => simp [truthiness, Fault.rename]

/-- New numbers do not change which integer a value stands for. -/
theorem toInteger_rename (v : Value) :
    (v.rename ρ).toInteger = ρ.onResult id v.toInteger := by
  cases v with
  | atom text =>
    rw [rename_atom, toInteger]
    split <;> rfl
  | list items => simp [toInteger, Fault.rename]
  | builtin op => simp [toInteger, Fault.rename]
  | closure head body => simp [toInteger, Fault.rename]

end Value

namespace Builtin

theorem inRange_onResult (i : Int) : ρ.onResult id (inRange i) = inRange i := by
  unfold inRange
  split <;> rfl

/-- Arithmetic on values under new numbers has the same result. -/
theorem accumulate_rename (op : Int → Int → Int) (value : Int) (args : List Value) :
    accumulate op value (args.map (Value.rename ρ)) =
      ρ.onResult id (accumulate op value args) := by
  induction args generalizing value with
  | nil => rfl
  | cons x xs ih =>
    have hstep : ∀ i, ρ.onResult id (accumulate op i xs) =
        accumulate op i (xs.map (Value.rename ρ)) := fun i => (ih i).symm
    have hread : ∀ i, ρ.onResult id (inRange (op value i)) = inRange (op value i) :=
      fun i => inRange_onResult ρ _
    unfold accumulate at hstep ⊢
    rw [List.map_cons, List.foldlM_cons, List.foldlM_cons, Value.toInteger_rename]
    rw [Renaming.onResult_bind_id ρ _ hstep, Renaming.onResult_bind_id ρ _ hread]

theorem difference_rename (args : List Value) :
    difference (args.map (Value.rename ρ)) = ρ.onResult id (difference args) := by
  cases args with
  | nil => rfl
  | cons x xs =>
    have hrest : ∀ i, ρ.onResult id (accumulate (· - ·) i xs) =
        accumulate (· - ·) i (xs.map (Value.rename ρ)) :=
      fun i => (accumulate_rename ρ _ i xs).symm
    rw [List.map_cons, difference, difference, Value.toInteger_rename,
      Renaming.onResult_bind_id ρ _ hrest]

theorem quotient_rename (x y : Value) :
    quotient (x.rename ρ) (y.rename ρ) = ρ.onResult id (quotient x y) := by
  have hdivide : ∀ dividend divisor : Int,
      ρ.onResult id (if divisor = 0 then .error .divisionByZero
        else inRange (dividend.tdiv divisor)) =
      if divisor = 0 then .error .divisionByZero else inRange (dividend.tdiv divisor) := by
    intro dividend divisor
    split
    · rfl
    · exact inRange_onResult ρ _
  unfold quotient
  rw [Value.toInteger_rename, Value.toInteger_rename,
    Renaming.onResult_bind_id ρ _ fun dividend =>
      Renaming.onResult_bind_id ρ _ (hdivide dividend)]

end Builtin

/-! ### Forms -/

@[simp] theorem Keyword.heading?_map_rename (items : List Value) :
    heading? (items.map (Value.rename ρ)) = heading? items := by
  match items with
  | [] => rfl
  | .atom text :: items => rw [List.map_cons, Value.rename_atom, heading?, heading?]
  | .list _ :: _ => simp [heading?]
  | .builtin _ :: _ => simp [heading?]
  | .closure _ _ :: _ => simp [heading?]

namespace Form

/-- The form under the new numbers. -/
def rename : Form → Form
  | lambda params body => lambda params (body.map (Value.rename ρ))
  | defineProcedure name params body => defineProcedure name params (body.map (Value.rename ρ))
  | defineValue name expr => defineValue name (expr.rename ρ)
  | branch predicate consequent alternative =>
    branch (predicate.rename ρ) (consequent.rename ρ) (alternative.map (Value.rename ρ))
  | quote datum => quote (datum.rename ρ)
  | expand expr => expand (expr.rename ρ)
  | sequence exprs => sequence (exprs.map (Value.rename ρ))
  | application items => application (items.map (Value.rename ρ))

theorem sequenceExpr_rename (exprs : List Value) :
    (sequenceExpr exprs).rename ρ = sequenceExpr (exprs.map (Value.rename ρ)) := by
  simp [sequenceExpr]

theorem paramNames_rename (params : List Value) :
    paramNames (params.map (Value.rename ρ)) = ρ.onResult id (paramNames params) := by
  unfold paramNames
  induction params with
  | nil => rfl
  | cons x xs ih =>
    rw [List.map_cons, List.mapM_cons, List.mapM_cons, ih]
    cases x with
    | atom name =>
      change _ = ρ.onResult id (_ >>= fun names => pure (name :: names))
      rw [Renaming.onResult_bind_id ρ _ fun names => rfl]
      rfl
    | list items => simp [Fault.rename, bind, Except.bind]
    | builtin op => simp [Fault.rename, bind, Except.bind]
    | closure head body => simp [Fault.rename, bind, Except.bind]

/-- Clauses under new numbers stand for the same expression, under these numbers. -/
theorem ofCond_rename (clauses : List Value) :
    ofCond (clauses.map (Value.rename ρ)) = ρ.onResult (Value.rename ρ) (ofCond clauses) := by
  induction clauses with
  | nil => simp [ofCond]
  | cons clause clauses ih =>
    cases clause with
    | list items =>
      cases items with
      | nil => simp [ofCond, Fault.rename]
      | cons predicate actions =>
        rw [List.map_cons, Value.rename_list, List.map_cons, ofCond, ofCond,
          Value.isAtomOf_rename]
        split
        · exact congrArg Except.ok (sequenceExpr_rename ρ actions).symm
        · rw [ih]
          refine (Renaming.onResult_bind ρ _ fun alternative => ?_).symm
          simp only [pure, Except.pure, Renaming.onResult_ok, Value.rename_list, List.map_cons,
            List.map_nil, Value.rename_atom, sequenceExpr_rename]
    | atom text => simp [ofCond, Fault.rename]
    | builtin op => simp [ofCond, Fault.rename]
    | closure head body => simp [ofCond, Fault.rename]

/-- The definition of a procedure: the first operand lists its name and its parameters. -/
theorem ofOperands_define_list_rename (whole : Value) (items body : List Value) :
    ofOperands (whole.rename ρ) ((.list items :: body).map (Value.rename ρ)) .define =
      ρ.onResult (rename ρ) (ofOperands whole (.list items :: body) .define) := by
  cases items with
  | nil => simp [ofOperands, Fault.rename]
  | cons head params =>
    cases head with
    | atom name =>
      simp only [List.map_cons, Value.rename_list, Value.rename_atom, ofOperands,
        paramNames_rename]
      refine (Renaming.onResult_bind_id ρ _ fun names => ?_).symm
      rfl
    | list items => simp [ofOperands, Fault.rename]
    | builtin op => simp [ofOperands, Fault.rename]
    | closure head body => simp [ofOperands, Fault.rename]

/-- A keyword makes the same form of operands under new numbers. -/
theorem ofOperands_rename (whole : Value) (operands : List Value) (keyword : Keyword) :
    ofOperands (whole.rename ρ) (operands.map (Value.rename ρ)) keyword =
      ρ.onResult (rename ρ) (ofOperands whole operands keyword) := by
  cases keyword with
  | lambda =>
    cases operands with
    | nil => rfl
    | cons params body =>
      cases params with
      | list params =>
        simp only [List.map_cons, Value.rename_list, ofOperands, paramNames_rename]
        refine (Renaming.onResult_bind_id ρ _ fun names => ?_).symm
        rfl
      | atom text => simp [ofOperands, Fault.rename]
      | builtin op => simp [ofOperands, Fault.rename]
      | closure head body => simp [ofOperands, Fault.rename]
  | define =>
    cases operands with
    | nil => rfl
    | cons target body =>
      cases target with
      | list items => exact ofOperands_define_list_rename ρ whole items body
      | atom name =>
        rcases body with _ | ⟨expr, _ | ⟨_, _⟩⟩
        · simp [ofOperands, Fault.rename]
        · simp [ofOperands, rename]
        · simp [ofOperands, Fault.rename]
      | builtin op => simp [ofOperands, Fault.rename]
      | closure head body => simp [ofOperands, Fault.rename]
  | branch => rcases operands with _ | ⟨_, _ | ⟨_, _ | ⟨_, _ | ⟨_, _⟩⟩⟩⟩ <;> rfl
  | quote => rcases operands with _ | ⟨_, _ | ⟨_, _⟩⟩ <;> simp [ofOperands, rename]
  | cond =>
    simp only [ofOperands, ofCond_rename]
    refine (Renaming.onResult_bind (f := Value.rename ρ) ρ _ fun expr => ?_).symm
    rfl
  | begin => rfl

/-- A list under new numbers is the same form under the new numbers, or has the same fault. -/
theorem ofItems_rename (items : List Value) :
    ofItems (items.map (Value.rename ρ)) = ρ.onResult (rename ρ) (ofItems items) := by
  rw [ofItems, ofItems, Keyword.heading?_map_rename]
  cases Keyword.heading? items with
  | none => rfl
  | some keyword =>
    have h := ofOperands_rename ρ (.list items) items.tail keyword
    rw [Value.rename_list, List.map_tail] at h
    exact h

end Form

end AtomLisp
