import AtomLisp.Proofs.BuiltinActs

/-!
# Steps in order

What is shown of single steps passes to computations that carry them out in order: to loops over a
list, to checks that may fail, and to the builtin operations, which are made of nothing else. The
rules are stated once for relations between computations of two kinds, once for properties of
computations, and once for judgments, which also say what is true of a value.
-/

namespace AtomLisp

/-! ### Relations -/

section Relation

variable {m n : Type → Type} [Monad m] [Monad n]

/-- Computations of two kinds are related if they do nothing and have the same value, and if they
carry out related steps in order. -/
structure Sequential (R : ∀ {α : Type}, m α → n α → Prop) : Prop where
  pure {α : Type} (a : α) : R (Pure.pure a) (Pure.pure a)
  bind {α β : Type} {act : m α} {act' : n α} {next : α → m β} {next' : α → n β} :
    R act act' → (∀ a, R (next a) (next' a)) → R (act >>= next) (act' >>= next')

namespace Sequential

variable {R : ∀ {α : Type}, m α → n α → Prop} (hR : Sequential (m := m) (n := n) R)
  {α β : Type}
include hR

/-- Loops are related if their steps are. -/
theorem foldlM (f : β → α → m β) (f' : β → α → n β) {xs : List α}
    (h : ∀ x ∈ xs, ∀ b, R (f b x) (f' b x)) (b : β) :
    R (xs.foldlM f b) (xs.foldlM f' b) := by
  induction xs generalizing b with
  | nil => exact hR.pure b
  | cons x xs ih =>
    rw [List.foldlM_cons, List.foldlM_cons]
    exact hR.bind (h x List.mem_cons_self b) (ih fun y hy => h y (List.mem_cons_of_mem _ hy))

/-- So are steps that yield a list of values. -/
theorem mapM [LawfulMonad m] [LawfulMonad n] (f : α → m β) (f' : α → n β) {xs : List α}
    (h : ∀ x ∈ xs, R (f x) (f' x)) : R (xs.mapM f) (xs.mapM f') := by
  induction xs with
  | nil =>
    rw [List.mapM_nil, List.mapM_nil]
    exact hR.pure []
  | cons x xs ih =>
    rw [List.mapM_cons, List.mapM_cons]
    have hrest := ih fun y hy => h y (List.mem_cons_of_mem _ hy)
    exact hR.bind (h x List.mem_cons_self) fun b => hR.bind hrest fun bs => hR.pure (b :: bs)

end Sequential

end Relation

namespace Eval

variable {α β : Type}

/-! ### Properties -/

/-- The steps that leave the store alone have the property, and it passes to steps in order. -/
structure Stepwise (P : ∀ {α : Type}, Eval α → Prop) : Prop where
  pure {α : Type} (a : α) : P (Pure.pure a : Eval α)
  raise {α : Type} (reason : Fault) : P (Eval.raise reason : Eval α)
  emit (event : Event) : P (Eval.emit event)
  write (text : String) : P (Eval.write text)
  bind {α β : Type} {act : Eval α} {next : α → Eval β} : P act → (∀ a, P (next a)) →
    P (act >>= next)

namespace Stepwise

variable {P : ∀ {α : Type}, Eval α → Prop} (hP : Stepwise P)
include hP

/-- A property is a relation that does not look at the second computation. -/
theorem sequential : Sequential (m := Eval) (n := Eval) fun act _ => P act where
  pure := hP.pure
  bind := hP.bind

theorem ofExcept (checked : Except Fault α) : P (Eval.ofExcept checked) := by
  cases checked with
  | ok a => exact hP.pure a
  | error reason => exact hP.raise reason

theorem foldlM {f : β → α → Eval β} {xs : List α} (h : ∀ x ∈ xs, ∀ b, P (f b x))
    (b : β) : P (xs.foldlM f b) :=
  hP.sequential.foldlM f f h b

theorem mapM {f : α → Eval β} {xs : List α} (h : ∀ x ∈ xs, P (f x)) : P (xs.mapM f) :=
  hP.sequential.mapM f f h

/-- Builtin operations have the property as well. -/
theorem call (op : Builtin) (args : List Value) : P (op.call args) :=
  Builtin.call_induction (fun text => hP.pure (Value.atom text)) (fun reason _ => hP.raise reason)
    (fun event _ hnext => hP.bind (hP.emit event) fun _ => hnext)
    (fun text _ hnext => hP.bind (hP.write text) fun _ => hnext) op args

end Stepwise

/-! ### Judgments -/

/-- A judgment on a computation and on its value, if it has one. It can be passed on the steps that
leave the store alone, and on steps in order, where what comes next may rely on what is true of the
values so far. -/
structure Judgment (J : ∀ {α : Type}, (α → Prop) → Eval α → Prop) : Prop where
  pure {α : Type} {Q : α → Prop} {a : α} : Q a → J Q (Pure.pure a)
  raise {α : Type} {Q : α → Prop} (reason : Fault) : J Q (Eval.raise reason)
  emit (event : Event) : J (fun _ => True) (Eval.emit event)
  write (text : String) : J (fun _ => True) (Eval.write text)
  bind {α β : Type} {Q : α → Prop} {R : β → Prop} {act : Eval α} {next : α → Eval β} :
    J Q act → (∀ a, Q a → J R (next a)) → J R (act >>= next)

namespace Judgment

variable {J : ∀ {α : Type}, (α → Prop) → Eval α → Prop} (hJ : Judgment J)
  {Q : α → Prop} {R : β → Prop}
include hJ

theorem ofExcept {checked : Except Fault α} (h : ∀ a, checked = .ok a → Q a) :
    J Q (Eval.ofExcept checked) := by
  cases checked with
  | ok a => exact hJ.pure (h a rfl)
  | error reason => exact hJ.raise reason

/-- What is true of the value that a loop carries is an invariant of the loop. -/
theorem foldlM {f : β → α → Eval β} {xs : List α}
    (h : ∀ b, R b → ∀ x ∈ xs, J R (f b x)) {b : β} (hb : R b) : J R (xs.foldlM f b) := by
  induction xs generalizing b with
  | nil => exact hJ.pure hb
  | cons x xs ih =>
    rw [List.foldlM_cons]
    refine hJ.bind (h b hb x List.mem_cons_self) fun b' hb' => ?_
    exact ih (fun b hb y hy => h b hb y (List.mem_cons_of_mem _ hy)) hb'

/-- What is true of each value is true of all values of a list. -/
theorem mapM {f : α → Eval β} {xs : List α} (h : ∀ x ∈ xs, J R (f x)) :
    J (fun bs => ∀ b ∈ bs, R b) (xs.mapM f) := by
  induction xs with
  | nil =>
    rw [List.mapM_nil]
    exact hJ.pure (List.forall_mem_nil R)
  | cons x xs ih =>
    rw [List.mapM_cons]
    refine hJ.bind (h x List.mem_cons_self) fun b hb => ?_
    refine hJ.bind (ih fun y hy => h y (List.mem_cons_of_mem _ hy)) fun bs hbs => ?_
    exact hJ.pure (List.forall_mem_cons.2 ⟨hb, hbs⟩)

/-- The value of a builtin operation is an atom, whatever its text. -/
theorem call {V : Value → Prop} (hatom : ∀ text, V (.atom text)) (op : Builtin)
    (args : List Value) : J V (op.call args) :=
  Builtin.call_induction (fun text => hJ.pure (hatom text)) (fun reason _ => hJ.raise reason)
    (fun event _ hnext => hJ.bind (hJ.emit event) fun _ _ => hnext)
    (fun text _ hnext => hJ.bind (hJ.write text) fun _ _ => hnext) op args

end Judgment

end Eval

end AtomLisp
