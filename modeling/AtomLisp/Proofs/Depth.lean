import AtomLisp.Proofs.Pervasive

/-!
# More depth changes nothing

A computation that is not cut short for want of depth does the same with more depth. So what a
program does is a matter of the program and the session alone, and depth only says how far it is
followed: evaluation at some depth is refined by evaluation at every greater depth (`eval_refines`),
and the same is true of running a program.

`Eval.Yields` says that a computation has a result with enough depth. Computations that refine one
another, each with more depth, have the same results (`Eval.yields_iff_of_refines`).
-/

namespace AtomLisp

namespace Eval

variable {α β : Type}

/-- The result of a computation that was not cut short: a value or an error. -/
def Finished (result : EStateM.Result Stop Session α) : Prop :=
  ∀ t, result ≠ .error .tooDeep t

/-- Where the first computation is not cut short, the second one does the same. -/
def Refines (act act' : Eval α) : Prop :=
  ∀ session, (∃ t, act session = .error .tooDeep t) ∨ act' session = act session

/-- With enough depth, the computation ends with this result and is not cut short. -/
def Yields (act : Nat → Eval α) (session : Session) (result : EStateM.Result Stop Session α) :
    Prop :=
  Finished result ∧ ∃ depth, act depth session = result

namespace Refines

theorem refl (act : Eval α) : Refines act act :=
  fun _ => .inr rfl

theorem trans {act act' act'' : Eval α} (h : Refines act act') (h' : Refines act' act'') :
    Refines act act'' := by
  intro session
  rcases h session with hcut | heq
  · exact .inl hcut
  · rcases h' session with hcut | heq'
    · rw [heq] at hcut
      exact .inl hcut
    · exact .inr (heq'.trans heq)

theorem tooDeep (act : Eval α) : Refines (throw .tooDeep) act :=
  fun session => .inl ⟨session, rfl⟩

/-- A computation that is not cut short does what every refinement of it does. -/
theorem eq_of_finished {act act' : Eval α} (h : Refines act act') {session : Session}
    (hact : Finished (act session)) : act' session = act session := by
  rcases h session with ⟨t, ht⟩ | heq
  · exact absurd ht (hact t)
  · exact heq

theorem bind {act act' : Eval α} {next next' : α → Eval β} (h : Refines act act')
    (hnext : ∀ a, Refines (next a) (next' a)) : Refines (act >>= next) (act' >>= next') := by
  intro session
  simp only [Bind.bind, EStateM.bind]
  rcases h session with ⟨t, ht⟩ | heq
  · exact .inl ⟨t, by rw [ht]⟩
  · rw [heq]
    cases act session with
    | ok a t => exact hnext a t
    | error stop t => exact .inr rfl

theorem within {act act' : Eval α} (h : Refines act act') (form : Value) :
    Refines (Eval.within form act) (Eval.within form act') := by
  intro session
  unfold Eval.within
  rcases h session with ⟨t, ht⟩ | heq
  · exact .inl ⟨t, by rw [ht]; rfl⟩
  · rw [heq]
    exact .inr rfl

/-- Every step of evaluation refines itself. -/
theorem respect : Steps.Respect (m := Eval) (n := Eval) Refines where
  pure _ := refl _
  bind := bind
  raise _ _ := refl _
  tooDeep := refl _
  within h := within h _
  enter _ _ := refl _
  lookup _ _ := refl _
  define _ _ _ := refl _
  extend _ _ := refl _
  makeClosure _ _ _ := refl _
  call _ _ := refl _

end Refines

/-- Computations that refine one another, each with more depth, have the same results. -/
theorem yields_iff_of_refines {act act' : Nat → Eval α} (more more' : Nat → Nat)
    (h : ∀ depth, Refines (act depth) (act' (more depth)))
    (h' : ∀ depth, Refines (act' depth) (act (more' depth))) {session : Session}
    {result : EStateM.Result Stop Session α} :
    Yields act session result ↔ Yields act' session result := by
  constructor
  · rintro ⟨hfinished, depth, rfl⟩
    exact ⟨hfinished, more depth, (h depth).eq_of_finished hfinished⟩
  · rintro ⟨hfinished, depth, rfl⟩
    exact ⟨hfinished, more' depth, (h' depth).eq_of_finished hfinished⟩

end Eval

open Eval

/-- Where the first evaluator is not cut short, the second one does the same. -/
def Evaluator.Refines (ev ev' : Evaluator Eval) : Prop :=
  ∀ x s, (ev x s).Refines (ev' x s)

/-- One more level refines evaluation. -/
theorem eval_refines_succ (depth : Nat) : Evaluator.Refines (eval depth) (eval (depth + 1)) := by
  induction depth with
  | zero => exact fun x s => .tooDeep _
  | succ depth ih => exact Eval.Refines.respect.evalStep ih

/-- Where evaluation is not cut short, it does the same at every greater depth. -/
theorem eval_refines {depth depth' : Nat} (h : depth ≤ depth') :
    Evaluator.Refines (eval depth) (eval depth') := by
  induction h with
  | refl => exact fun x s => .refl _
  | step _ ih => exact fun x s => (ih x s).trans (eval_refines_succ _ x s)

/-- More depth changes nothing for a program that is not cut short. -/
theorem runForms_refines {depth depth' : Nat} (h : depth ≤ depth') (forms : List Value)
    (s : ScopeId) : (runForms depth forms s).Refines (runForms depth' forms s) := by
  refine Eval.Refines.respect.foldlM _ _ (fun form _ _ => ?_) Value.nil
  exact .bind (.refl _) fun _ => eval_refines h form s

/-- Nor does it for running a program. -/
theorem run_refines {depth depth' : Nat} (h : depth ≤ depth') (source : String) (s : ScopeId) :
    (run depth source s).Refines (run depth' source s) :=
  runForms_refines h (read source) s

end AtomLisp
